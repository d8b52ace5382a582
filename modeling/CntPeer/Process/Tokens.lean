import Mathlib.Algebra.Ring.Int.Defs
import CntPeer.Process.View

/-!
# Requests and their answers

A request that a session has decided on turns into a message, into the answer of
the peer and into the piece being accepted.  Each side of a connection passes
it on and keeps no copy.
-/

namespace CntPeer

open CntPeer.Foundation

def isRequest (i : Nat) : Msg → Bool
  | .actual (.requestMsg j) => decide (j = i)
  | _ => false

def isPiece (i : Nat) : Msg → Bool
  | .actual (.pieceMsg j _) => decide (j = i)
  | _ => false

def requests (i : Nat) (l : List Msg) : Nat := l.countP (isRequest i)

def pieces (i : Nat) (l : List Msg) : Nat := l.countP (isPiece i)

/-- The piece that a thread at this place is accepting: it is taken out of the
queue and `setOwned` has not finished. -/
def Pc.accepting : Pc → Option Nat
  | .savePiece i _ | .saveCache i _ | .readCount i | .logPiece i _
  | .countOwned i | .markOwned i => some i
  | _ => none

def Pc.answering : Pc → Option Nat
  | .getPiece i | .readPiece i | .cachePiece i _ | .sendPiece i _ => some i
  | _ => none

/-- A thread at this place holds the only trace of a request for `i`. -/
def Pc.holds (pc : Pc) (i : Nat) : Nat :=
  if pc = .sendRequest i ∨ pc.accepting = some i then 1 else 0

/-- A thread at this place holds the only trace of an answer with `i`. -/
def Pc.owes (pc : Pc) (i : Nat) : Nat :=
  if pc.answering = some i then 1 else 0

def Pc.makes (pc : Pc) (i : Nat) : Nat :=
  if pc = .setRequested i then 1 else 0

def Pc.settles (pc : Pc) (i : Nat) : Nat :=
  if pc = .markOwned i then 1 else 0

/-- Requests for `i` that have not left the session, and answers that have
arrived and are not accepted. -/
def asking (x : Session) (i : Nat) : Nat := x.pc.holds i + pieces i x.pending

def serving (x : Session) (i : Nat) : Nat := x.pc.owes i + requests i x.pending

def discarding (x : Session) : Option Event :=
  match x.pc with
  | .drain | .awaitTearDown => x.eq.head?
  | _ => none

@[simp] theorem requests_nil (i : Nat) : requests i [] = 0 := rfl
@[simp] theorem pieces_nil (i : Nat) : pieces i [] = 0 := rfl

@[simp] theorem requests_cons (i : Nat) (m : Msg) (l : List Msg) :
    requests i (m :: l) = requests i l + if isRequest i m then 1 else 0 := by
  simp [requests, List.countP_cons]

@[simp] theorem pieces_cons (i : Nat) (m : Msg) (l : List Msg) :
    pieces i (m :: l) = pieces i l + if isPiece i m then 1 else 0 := by
  simp [pieces, List.countP_cons]

@[simp] theorem requests_append (i : Nat) (k l : List Msg) :
    requests i (k ++ l) = requests i k + requests i l :=
  List.countP_append

@[simp] theorem pieces_append (i : Nat) (k l : List Msg) :
    pieces i (k ++ l) = pieces i k + pieces i l :=
  List.countP_append

theorem requests_bitfield (i : Nat) (bf : Option (List PieceStatus)) :
    requests i (bf.toList.map fun sv => .actual (.bitfieldMsg sv)) = 0 := by
  cases bf <;> simp [isRequest]

theorem pieces_bitfield (i : Nat) (bf : Option (List PieceStatus)) :
    pieces i (bf.toList.map fun sv => .actual (.bitfieldMsg sv)) = 0 := by
  cases bf <;> simp [isPiece]

namespace Proc

variable {p p' : Proc} {s t : Sid}

theorem asking_handle {sh : Shared} {x : Session} {e : Event} {i : Nat}
    (hpc : x.pc = .handle e) :
    asking (handle sh x e).after i + requests i (handle sh x e).out =
      asking x i := by
  cases e with
  | msgPiece j d =>
      simp only [handle]
      repeat' split
      · rename_i hrange _
        obtain ⟨k, rfl, -⟩ := checkRange_iff.mp hrange
        simp [asking, Session.pending, Session.events, Effect.after,
          Session.goto, Session.took, hpc, Pc.holds, Pc.accepting, Event.msg?,
          isPiece, Nat.add_comm]
      all_goals simp [asking, Session.pending, Session.events, Effect.after,
        panicEffect]
  | _ =>
      simp only [handle]
      repeat' split
      all_goals simp [asking, Session.pending, Session.events, Effect.after,
        panicEffect, Session.goto, Session.took, hpc, Pc.holds, Pc.accepting,
        List.filterMap_cons, Event.msg?, isPiece, isRequest]

theorem serving_handle {sh : Shared} {x : Session} {e : Event} {i : Nat}
    (hpc : x.pc = .handle e) :
    serving (handle sh x e).after i + pieces i (handle sh x e).out =
      serving x i := by
  cases e with
  | msgRequest j =>
      simp only [handle]
      repeat' split
      · rename_i hrange _
        obtain ⟨k, rfl, -⟩ := checkRange_iff.mp hrange
        simp [serving, Session.pending, Session.events, Effect.after,
          Session.goto, Session.took, hpc, Pc.owes, Pc.answering, Event.msg?,
          isRequest, Nat.add_comm]
      all_goals simp [serving, Session.pending, Session.events, Effect.after,
        panicEffect]
  | _ =>
      simp only [handle]
      repeat' split
      all_goals simp [serving, Session.pending, Session.events, Effect.after,
        panicEffect, Session.goto, Session.took, hpc, Pc.owes, Pc.answering,
        List.filterMap_cons, Event.msg?, isPiece, isRequest]

/-- A teardown loop leaves the messages alone that it does not find at the head
of its queue. -/
theorem discard_keeps {c : Choice} {P : Msg → Bool}
    (hpc : (p.sess s).pc = .drain ∨ (p.sess s).pc = .awaitTearDown)
    (hkeep : ∀ e ∈ discarding (p.sess s), ∀ m ∈ e.msg?, P m = false) :
    (protocol p s c).after.pending.countP P = (p.sess s).pending.countP P ∧
      (protocol p s c).out = [] ∧ ∀ i, (protocol p s c).after.pc.holds i = 0 ∧
        (protocol p s c).after.pc.owes i = 0 := by
  rcases hpc with hpc | hpc
  all_goals
    simp only [discarding, hpc] at hkeep
    cases heq : (p.sess s).eq with
    | nil =>
        simp [protocol, hpc, heq, drainStep, awaitStep, Session.pending,
          Session.events, Effect.after, Session.goto, Pc.holds, Pc.owes,
          Pc.accepting, Pc.answering]
    | cons e rest =>
        have hmsg := hkeep e (by rw [heq]; rfl)
        cases e with
        | _ => simp_all [protocol, drainStep, awaitStep, discard,
            Session.pending, Session.events, Effect.after, Session.goto,
            Pc.holds, Pc.owes, Pc.accepting, Pc.answering, List.filterMap_cons,
            Event.msg?]

theorem asking_discard {c : Choice} {i : Nat}
    (hpc : (p.sess s).pc = .drain ∨ (p.sess s).pc = .awaitTearDown)
    (hkeep : ∀ j d, discarding (p.sess s) ≠ some (.msgPiece j d)) :
    asking (protocol p s c).after i + requests i (protocol p s c).out =
      asking (p.sess s) i := by
  have hpieces : ∀ e ∈ discarding (p.sess s), ∀ m ∈ e.msg?,
      isPiece i m = false := by
    intro e he m hm
    cases e with
    | msgPiece j d => exact absurd he (hkeep j d)
    | _ =>
        cases hm
        try rfl
  obtain ⟨hcount, hout, hplace⟩ := discard_keeps (c := c) hpc hpieces
  have hnone : (p.sess s).pc.holds i = 0 := by
    rcases hpc with hpc | hpc
    all_goals
      rw [hpc]
      rfl
  rw [asking, asking, pieces, pieces, hcount, hout, (hplace i).1, hnone]
  rfl

/-- A thread passes its requests on; `setRequested` makes one and the end of
`setOwned` settles one. -/
theorem asking_protocol {c : Choice} {i : Nat}
    (hl : OwnLocal p.sh s (p.sess s))
    (hkeep : ∀ j d, discarding (p.sess s) ≠ some (.msgPiece j d)) :
    asking (protocol p s c).after i + requests i (protocol p s c).out +
        (p.sess s).pc.settles i =
      asking (p.sess s) i + (p.sess s).pc.makes i := by
  cases hpc : (p.sess s).pc with
  | handle e =>
      simp only [protocol, hpc]
      simpa [Pc.settles, Pc.makes] using asking_handle hpc
  | setRequested j =>
      simp only [OwnLocal, hpc] at hl
      have hj := (List.getElem?_eq_some_iff.mp hl.2).1
      simp [protocol, hpc, hj, asking, Session.pending, Session.events,
        Effect.after, Session.goto, Pc.holds, Pc.makes, Pc.settles,
        Pc.accepting, Nat.add_comm]
  | sendRequest j | markOwned j =>
      simp [protocol, hpc, asking, Session.pending, Session.events,
        Effect.after, Session.goto, Pc.holds, Pc.makes, Pc.settles,
        Pc.accepting, isRequest, Nat.add_comm]
  | markReady =>
      have hout := requests_bitfield i (p.sess s).bfMsg
      simp [protocol, hpc, asking, Session.pending, Session.events,
        Effect.after, Pc.holds, Pc.makes, Pc.settles, Pc.accepting, hout]
  | bcastNext j rest =>
      obtain ⟨m, pc, hturn, hstep⟩ := protocol_bcastNext (c := c) hpc
      rw [hstep]
      cases hturn
      all_goals simp [asking, Session.pending, Session.events, Effect.after,
        Session.goto, hpc, Pc.holds, Pc.makes, Pc.settles, Pc.accepting]
  | drain | awaitTearDown =>
      rw [asking_discard (by simp [hpc]) hkeep]
      rfl
  | _ =>
      simp only [protocol, hpc, withDifference, withCollection]
      repeat' split
      all_goals simp [asking, Session.pending, Session.events, Effect.after,
        panicEffect, Session.goto, Pc.holds, Pc.makes, Pc.settles,
        Pc.accepting, isRequest, *]

theorem serving_discard {c : Choice} {i : Nat}
    (hpc : (p.sess s).pc = .drain ∨ (p.sess s).pc = .awaitTearDown)
    (hkeep : ∀ j, discarding (p.sess s) ≠ some (.msgRequest j)) :
    serving (protocol p s c).after i + pieces i (protocol p s c).out =
      serving (p.sess s) i := by
  have hrequests : ∀ e ∈ discarding (p.sess s), ∀ m ∈ e.msg?,
      isRequest i m = false := by
    intro e he m hm
    cases e with
    | msgRequest j => exact absurd he (hkeep j)
    | _ =>
        cases hm
        try rfl
  obtain ⟨hcount, hout, hplace⟩ := discard_keeps (c := c) hpc hrequests
  have hnone : (p.sess s).pc.owes i = 0 := by
    rcases hpc with hpc | hpc
    all_goals
      rw [hpc]
      rfl
  rw [serving, serving, requests, requests, hcount, hout, (hplace i).2, hnone]
  rfl

theorem serving_protocol {c : Choice} {i : Nat}
    (hkeep : ∀ j, discarding (p.sess s) ≠ some (.msgRequest j)) :
    serving (protocol p s c).after i + pieces i (protocol p s c).out =
      serving (p.sess s) i := by
  cases hpc : (p.sess s).pc with
  | handle e =>
      simp only [protocol, hpc]
      exact serving_handle hpc
  | sendPiece j d =>
      simp [protocol, hpc, serving, Session.pending, Session.events,
        Effect.after, Session.goto, Pc.owes, Pc.answering, isPiece,
        Nat.add_comm]
  | markReady =>
      have hout := pieces_bitfield i (p.sess s).bfMsg
      simp [protocol, hpc, serving, Session.pending, Session.events,
        Effect.after, Pc.owes, Pc.answering, hout]
  | bcastNext j rest =>
      obtain ⟨m, pc, hturn, hstep⟩ := protocol_bcastNext (c := c) hpc
      rw [hstep]
      cases hturn
      all_goals simp [serving, Session.pending, Session.events, Effect.after,
        Session.goto, hpc, Pc.owes, Pc.answering]
  | drain | awaitTearDown => exact serving_discard (by simp [hpc]) hkeep
  | _ =>
      simp only [protocol, hpc, withDifference, withCollection]
      repeat' split
      all_goals simp [serving, Session.pending, Session.events, Effect.after,
        panicEffect, Session.goto, Pc.owes, Pc.answering, isPiece, *]

theorem asking_enqAll (x : Session) (es : List Event) (i : Nat) :
    asking (x.enqAll es) i =
      asking x i + pieces i (es.filterMap Event.msg?) := by
  simp [asking, Nat.add_assoc]

theorem serving_enqAll (x : Session) (es : List Event) (i : Nat) :
    serving (x.enqAll es) i =
      serving x i + requests i (es.filterMap Event.msg?) := by
  simp [serving, Nat.add_assoc]

end Proc

def SessionAct.makes : SessionAct → Pc → Nat → Nat
  | .thread _, pc, i => pc.makes i
  | _, _, _ => 0

def SessionAct.settles : SessionAct → Pc → Nat → Nat
  | .thread _, pc, i => pc.settles i
  | _, _, _ => 0

namespace Proc

variable {p p' : Proc} {s t : Sid}

def makesAt (p : Proc) : Act → Sid → Nat → Nat
  | .session s a, t, i => if t = s then a.makes (p.sess t).pc i else 0
  | _, _, _ => 0

def settlesAt (p : Proc) : Act → Sid → Nat → Nat
  | .session s a, t, i => if t = s then a.settles (p.sess t).pc i else 0
  | _, _, _ => 0

/-- No teardown loop throws a request or an answer away in this step. -/
def KeepsTokens (p : Proc) (a : Act) : Prop :=
  ∀ s c, a = .session s (.thread c) → ∀ e, discarding (p.sess s) = some e →
    (∀ j, e ≠ .msgRequest j) ∧ ∀ j d, e ≠ .msgPiece j d

theorem tokens_of_not_thread {a : SessionAct} {P : Msg → Bool}
    (hen : p.sessionEnabled s a = true) (hexp : a.expected = true)
    (ha : ∀ c, a ≠ .thread c) (hhandshake : ∀ n, P (.handshakeMsg n) = false)
    (hbitfield : ∀ sv, P (.actual (.bitfieldMsg sv)) = false) :
    ((p.commit s (p.sessionEffect s a)).sess s).pending.countP P =
        (p.sess s).pending.countP P + a.input.countP P ∧
      (p.sessionEffect s a).out = [] ∧
      ∀ i, (p.sessionEffect s a).after.pc.holds i = (p.sess s).pc.holds i ∧
        (p.sessionEffect s a).after.pc.owes i = (p.sess s).pc.owes i := by
  have hnil : (∀ m, a ≠ .scan m) →
      (postsTo s (p.sessionEffect s a).posts).filterMap Event.msg? = [] :=
    fun ha => postsTo_internal (fun m => .inl (ha m)) hen
  rw [commit_self, Session.enqAll_pending, List.countP_append]
  cases a with
  | thread c => exact absurd rfl (ha c)
  | create _ _ | recvHandshake _ =>
      rw [hnil (by simp)]
      simp only [sessionEnabled, Bool.and_eq_true, decide_eq_true_eq] at hen
      simp only [sessionEffect]
      repeat' split
      all_goals simp [Session.pending, Session.events, Effect.after, panicEffect,
        Session.goto, Pc.holds, Pc.owes, Pc.accepting, Pc.answering, hen,
        SessionAct.input, hhandshake]
  | recvBitfield m =>
      rw [hnil (by simp)]
      simp only [sessionEnabled, decide_eq_true_eq] at hen
      cases m with
      | bitfieldMsg sv =>
          simp [sessionEffect, Session.pending, Session.events, Effect.after,
            Session.took, Pc.holds, Pc.owes, Pc.accepting, Pc.answering, hen,
            SessionAct.input, hbitfield]
      | _ => cases hexp
  | scan m =>
      obtain ⟨e, he⟩ := scanned_of_expected hexp
      simp [sessionEffect, he, Session.pending, Session.events, Effect.after,
        msg?_of_scanned he, SessionAct.input]
  | readFails h | received n =>
      rw [hnil (by simp)]
      simp [sessionEffect, Session.pending, Session.events, Effect.after,
        SessionAct.input]

/-- The books of the session that takes a step: requests move from its place
and its queue to the connection, answers the other way. -/
theorem asking_sessionEffect {a : SessionAct} {i : Nat}
    (hen : p.sessionEnabled s a = true) (hexp : a.expected = true)
    (hl : OwnLocal p.sh s (p.sess s))
    (hkeep : ∀ c, a = .thread c →
      ∀ j d, discarding (p.sess s) ≠ some (.msgPiece j d)) :
    asking ((p.commit s (p.sessionEffect s a)).sess s) i +
        requests i (p.sessionEffect s a).out + a.settles (p.sess s).pc i =
      asking (p.sess s) i + a.makes (p.sess s).pc i + pieces i a.input := by
  by_cases ha : ∃ c, a = .thread c
  · obtain ⟨c, rfl⟩ := ha
    rw [commit_self, asking_enqAll, postsTo_internal (fun _ => .inl (by simp)) hen]
    exact asking_protocol hl (hkeep c rfl)
  · have hnot := not_exists.mp ha
    obtain ⟨hcount, hout, hplace⟩ := tokens_of_not_thread (P := isPiece i) hen hexp
      hnot (fun _ => rfl) (fun _ => rfl)
    have hmakes : a.makes (p.sess s).pc i = 0 ∧ a.settles (p.sess s).pc i = 0 := by
      cases a with
      | thread c => exact absurd rfl (hnot c)
      | _ => exact ⟨rfl, rfl⟩
    rw [asking, asking, pieces, pieces, pieces, hcount, hout, commit_pc_self,
      (hplace i).1, hmakes.1, hmakes.2, requests_nil]
    omega

theorem serving_sessionEffect {a : SessionAct} {i : Nat}
    (hen : p.sessionEnabled s a = true) (hexp : a.expected = true)
    (hkeep : ∀ c, a = .thread c →
      ∀ j, discarding (p.sess s) ≠ some (.msgRequest j)) :
    serving ((p.commit s (p.sessionEffect s a)).sess s) i +
        pieces i (p.sessionEffect s a).out =
      serving (p.sess s) i + requests i a.input := by
  by_cases ha : ∃ c, a = .thread c
  · obtain ⟨c, rfl⟩ := ha
    rw [commit_self, serving_enqAll, postsTo_internal (fun _ => .inl (by simp)) hen]
    exact serving_protocol (hkeep c rfl)
  · obtain ⟨hcount, hout, hplace⟩ := tokens_of_not_thread (P := isRequest i) hen hexp
      (not_exists.mp ha) (fun _ => rfl) (fun _ => rfl)
    rw [serving, serving, requests, requests, requests, hcount, hout,
      commit_pc_self, (hplace i).2, pieces_nil]
    omega

theorem asking_step {a : Act} {i : Nat} (hexp : a.expected = true)
    (hlocal : ∀ s, OwnLocal p.sh s (p.sess s)) (hkeep : KeepsTokens p a)
    (hstep : p.step a = some p') (t : Sid) :
    asking (p'.sess t) i + requests i (p.outputAt a t) + p.settlesAt a t i =
      asking (p.sess t) i + p.makesAt a t i + pieces i (a.inputAt t) := by
  cases a with
  | session s act =>
      obtain ⟨hen, rfl⟩ := session_step hstep
      simp only [outputAt, settlesAt, makesAt, Act.inputAt]
      by_cases hts : t = s
      · subst t
        simp only [if_true]
        refine asking_sessionEffect hen hexp (hlocal s) ?_
        rintro c rfl j d hd
        exact (hkeep s c rfl _ hd).2 j d rfl
      · simp only [if_neg hts, requests_nil, pieces_nil]
        rw [commit_of_ne hts, asking_enqAll,
          postsTo_internal (fun _ => .inr hts) hen]
        rfl
  | _ =>
      obtain ⟨es, hes, heq⟩ := (background_step hstep rfl).sess t
      rw [heq, asking_enqAll,
        internal_of_forall fun e he => msg?_of_isTimer (hes e he)]
      rfl

theorem serving_step {a : Act} {i : Nat} (hexp : a.expected = true)
    (hkeep : KeepsTokens p a) (hstep : p.step a = some p') (t : Sid) :
    serving (p'.sess t) i + pieces i (p.outputAt a t) =
      serving (p.sess t) i + requests i (a.inputAt t) := by
  cases a with
  | session s act =>
      obtain ⟨hen, rfl⟩ := session_step hstep
      simp only [outputAt, Act.inputAt]
      by_cases hts : t = s
      · subst t
        simp only [if_true]
        refine serving_sessionEffect hen hexp ?_
        rintro c rfl j hd
        exact (hkeep s c rfl _ hd).1 j rfl
      · simp only [if_neg hts, requests_nil, pieces_nil]
        rw [commit_of_ne hts, serving_enqAll,
          postsTo_internal (fun _ => .inr hts) hen]
        rfl
  | _ =>
      obtain ⟨es, hes, heq⟩ := (background_step hstep rfl).sess t
      rw [heq, serving_enqAll,
        internal_of_forall fun e he => msg?_of_isTimer (hes e he)]
      rfl

inductive StatusStep (p p' : Proc) (a : Act) (i : Nat) : Prop
  | made (s : Sid) (absent : p.sh.own.sv[i]? = some .absent)
      (requested : p'.sh.own.sv[i]? = some .requested)
      (makes : ∀ t, p.makesAt a t i = if t = s then 1 else 0)
      (settles : ∀ t, p.settlesAt a t i = 0)
      (acts : ∃ act, a = .session s act)
  | settled (s : Sid) (stands : (p.sess s).pc = .markOwned i)
      (owned : p'.sh.own.sv[i]? = some .owned)
      (makes : ∀ t, p.makesAt a t i = 0)
      (settles : ∀ t, p.settlesAt a t i = if t = s then 1 else 0)
      (acts : ∃ act, a = .session s act)
  | same (status : p'.sh.own.sv[i]? = p.sh.own.sv[i]?)
      (makes : ∀ t, p.makesAt a t i = 0) (settles : ∀ t, p.settlesAt a t i = 0)

theorem statusStep_thread {c : Choice} {i : Nat}
    (hlocal : OwnLocal p.sh s (p.sess s)) (hrun : runnable p s = true) :
    StatusStep p (p.commit s (protocol p s c)) (.session s (.thread c)) i := by
  by_cases hmake : (p.sess s).pc = .setRequested i
  · simp only [OwnLocal, hmake] at hlocal
    have hi := (List.getElem?_eq_some_iff.mp hlocal.2).1
    refine .made s hlocal.2 ?_ (fun t => ?_) (fun t => ?_) ⟨_, rfl⟩
    · simp [protocol, hmake, hi, SyncPieceBitfield.setRequested]
    · by_cases hts : t = s
      · subst t
        simp [makesAt, SessionAct.makes, Pc.makes, hmake]
      · simp [makesAt, hts]
    · by_cases hts : t = s
      · subst t
        simp [settlesAt, SessionAct.settles, Pc.settles, hmake]
      · simp [settlesAt, hts]
  · have hmakes : ∀ t, p.makesAt (.session s (.thread c)) t i = 0 := by
      intro t
      by_cases hts : t = s
      · subst t
        simp [makesAt, SessionAct.makes, Pc.makes, hmake]
      · simp [makesAt, hts]
    by_cases hset : (p.sess s).pc = .markOwned i
    · simp only [OwnLocal, hset] at hlocal
      have hi : i < p.sh.own.sv.length := by
        rcases hlocal.2 with h | h <;> exact (List.getElem?_eq_some_iff.mp h).1
      refine .settled s hset ?_ hmakes (fun t => ?_) ⟨_, rfl⟩
      · simp [protocol, hset, hi, SyncPieceBitfield.markOwned]
      · by_cases hts : t = s
        · subst t
          simp [settlesAt, SessionAct.settles, Pc.settles, hset]
        · simp [settlesAt, hts]
    · refine .same ?_ hmakes (fun t => ?_)
      · rw [commit_sh]
        cases protocol_own (c := c) hrun with
        | same stays heq => rw [heq]
        | requested j stands free heq =>
            have hij : j ≠ i := by
              rintro rfl
              exact hmake stands
            rw [heq, SyncPieceBitfield.setRequested, List.getElem?_set_ne hij]
        | counted j stands goes free hj heq =>
            rw [heq, SyncPieceBitfield.countOwned]
        | marked j stands heq =>
            have hij : j ≠ i := by
              rintro rfl
              exact hset stands
            rw [heq, SyncPieceBitfield.markOwned, List.getElem?_set_ne hij]
      · by_cases hts : t = s
        · subst t
          simp [settlesAt, SessionAct.settles, Pc.settles, hset]
        · simp [settlesAt, hts]

theorem statusStep {a : Act} {i : Nat}
    (hlocal : ∀ s, OwnLocal p.sh s (p.sess s)) (hstep : p.step a = some p') :
    StatusStep p p' a i := by
  cases a with
  | session s act =>
      obtain ⟨hen, rfl⟩ := session_step hstep
      cases act with
      | thread c => exact statusStep_thread (hlocal s) hen
      | _ =>
          refine .same ?_ (fun t => ?_) (fun t => ?_)
          · simp only [commit_sh, sessionEffect]
            repeat' split
            all_goals rfl
          · simp [makesAt, SessionAct.makes]
          · simp [settlesAt, SessionAct.settles]
  | _ =>
      have hb := background_step hstep rfl
      exact .same (by rw [hb.own]) (fun _ => rfl) (fun _ => rfl)

theorem answering_protocol {c : Choice} {i : Nat}
    (h : (protocol p s c).after.pc.answering = some i) :
    (p.sess s).pc.answering = some i ∨ p.sh.own.sv[i]? = some .owned := by
  cases hpc : (p.sess s).pc with
  | handle e =>
      right
      simp only [protocol, hpc] at h
      cases e with
      | msgRequest j =>
          simp only [handle] at h
          repeat' split at h
          · rename_i _ hown
            cases h
            simpa [SyncPieceBitfield.isOwned] using hown
          all_goals simp [Effect.after, panicEffect, hpc, Pc.answering] at h
      | _ =>
          simp only [handle] at h
          repeat' split at h
          all_goals simp [Effect.after, panicEffect, Session.goto, hpc,
            Pc.answering] at h
  | bcastNext j rest =>
      left
      obtain ⟨m, pc, hturn, hstep⟩ := protocol_bcastNext (c := c) hpc
      rw [hstep] at h
      cases hturn
      all_goals simp only [Effect.after, Session.goto] at h
      all_goals cases h
  | readPiece j =>
      left
      simp only [protocol, hpc] at h
      split at h
      · exact h
      · simpa [Effect.after, panicEffect, hpc] using h
  | sendTearDown received =>
      cases received
      all_goals
        simp only [protocol, hpc] at h
        cases h
  | _ =>
      left
      simp only [protocol, hpc, withDifference, withCollection, drainStep,
        awaitStep, discard] at h
      repeat' split at h
      all_goals first
        | exact h
        | contradiction
        | simp [Effect.after, panicEffect, hpc, Pc.answering] at h

end Proc

structure Served (own : List PieceStatus) (x : Session) : Prop where
  answering : ∀ i, x.pc.answering = some i → own[i]? = some .owned
  written : ∀ (j : Int) d, .actual (.pieceMsg j d) ∈ x.sent →
    ∃ i : Nat, j = i ∧ own[i]? = some .owned

theorem Served.mono {own own' : List PieceStatus} {x : Session}
    (h : Served own x) (hadv : Advances own own') : Served own' x where
  answering i hi := hadv.owned i (h.answering i hi)
  written j d hj :=
    let ⟨i, hij, hi⟩ := h.written j d hj
    ⟨i, hij, hadv.owned i hi⟩

namespace Proc

variable {p p' : Proc} {s t : Sid}

theorem served_sessionEffect {a : SessionAct}
    (hen : p.sessionEnabled s a = true) (h : Served p.sh.own.sv (p.sess s)) :
    Served p.sh.own.sv (p.sessionEffect s a).after := by
  have hact := actCases hen
  generalize p.sessionEffect s a = e at hact
  cases hact with
  | thread c =>
      refine ⟨fun i hi => ?_, fun j d hj => ?_⟩
      · rcases answering_protocol hi with hi | hi
        · exact h.answering i hi
        · exact hi
      · rw [sent_protocol, List.mem_append] at hj
        rcases hj with hj | hj
        · exact h.written j d hj
        · obtain ⟨i, hij, hpc⟩ := mayWrite_protocol _ hj
          exact ⟨i, hij, h.answering i (by rw [hpc]; rfl)⟩
  | setup stands goes quiet keeps =>
      refine ⟨fun i hi => ?_, fun j d hj => ?_⟩
      · revert hi goes
        cases e.after.pc <;> simp [Pc.answering, Pc.stage]
      · rw [keeps.sent] at hj
        exact h.written j d hj
  | idle after =>
      obtain ⟨n, heq⟩ := after
      rw [heq]
      exact ⟨h.answering, h.written⟩

theorem served_reachable {cfg : Config} (h : Reachable cfg p) :
    ∀ s, Served p.sh.own.sv (p.sess s) := by
  refine h.invariant (I := fun p => ∀ s, Served p.sh.own.sv (p.sess s))
    (fun _ => ⟨nofun, nofun⟩) fun p a p' hr ih _ hstep t => ?_
  have hadv := (owning_reachable hr).advances hstep
  obtain ⟨-, ⟨s, act, rfl, hen, rfl⟩ | hb⟩ := step_cases hstep
  · have hmoved : Served p.sh.own.sv (p.moved s (p.sessionEffect s act) t) := by
      by_cases hts : t = s
      · subst t
        rw [moved_self]
        exact served_sessionEffect hen (ih s)
      · rw [moved_of_ne hts]
        exact ih t
    rw [commit_sess]
    have := hmoved.mono hadv
    exact ⟨this.answering, this.written⟩
  · obtain ⟨es, -, heq⟩ := hb.sess t
    rw [heq]
    have := (ih t).mono hadv
    exact ⟨this.answering, this.written⟩

end Proc

end CntPeer
