import Mathlib.Algebra.BigOperators.Group.Finset.Piecewise
import Mathlib.Algebra.Order.BigOperators.Group.Finset
import CntPeer.Foundation.Ranking
import CntPeer.Process.CleanUp
import CntPeer.Process.Seats

/-!
# The work of a process

What the threads of a process still have to do between two inputs is bounded.
Every event, every place of a thread and every absent piece carries a weight that
pays for all that follows from it, up to the messages it makes the process write.
The weights solve the inequalities of `spends_protocol`; `k` bounds the number of
sessions that a broadcast visits.
-/

namespace CntPeer

open CntPeer.Foundation

def Event.weight (k : Nat) : Event → Nat
  | .msgChoke | .msgTearDown => 2
  | .msgUnchoke => 4
  | .timerChoke => 5
  | .timerUnchoke => 7
  | .msgInterest => 10
  | .msgHave _ => 14
  | .msgNotInterest => 18
  | .bcastHave _ => 38
  | .msgPiece _ _ => 40 * k + 12
  | .msgRequest _ => 40 * k + 19

/-- A message weighs one more than the event that the scanner makes of it. -/
def Msg.weight (k : Nat) : Msg → Nat
  | .handshakeMsg _ => 1
  | .actual m =>
      match scanned m with
      | .ok e => e.weight k + 1
      | .error _ => 1

/-- What the protocol thread has left to do at its place, the events in its
queue apart. -/
def Pc.weight (k : Nat) : Pc → Nat
  | .absent | .ended => 0
  | .handshake => 48
  | .snapshot => 46
  | .markReady => 45
  | .recvHandshake | .recvBitfield | .sendInterest => 43
  | .activate => 23
  | .loop => 22
  | .handle e => e.weight k + 21
  | .bcastInterest => 43
  | .bcastDone => 23
  | .requestNext => 24
  | .setRequested _ => 23
  | .sendRequest _ => 40 * k + 43
  | .preempt => 30
  | .relinquish => 38
  | .haveInterest => 34
  | .getPiece _ => 40 * k + 39
  | .readPiece _ => 40 * k + 38
  | .cachePiece _ _ => 40 * k + 37
  | .sendPiece _ _ => 40 * k + 36
  | .savePiece _ _ => 40 * k + 32
  | .saveCache _ _ => 40 * k + 31
  | .readCount _ => 40 * k + 30
  | .logPiece _ _ => 40 * k + 29
  | .countOwned _ => 40 * k + 28
  | .markOwned _ => 40 * k + 27
  | .bcastLock _ => 40 * k + 26
  | .bcastNext _ rest => 40 * rest.length + 25
  | .bcastEnq _ _ rest | .bcastWait _ _ rest => 40 * rest.length + 64
  | .drain => 21
  | .drainHave _ => 57
  | .drainInterest => 41
  | .sendTearDown _ => 20
  | .awaitTearDown => 16
  | .finalRelinquish => 15
  | .notify => 2

def weightOf (k : Nat) (es : List Event) : Nat := (es.map (Event.weight k)).sum

def Session.weight (k : Nat) (x : Session) : Nat :=
  x.pc.weight k + weightOf k x.eq

def burden (k : Nat) (l : List Msg) : Nat := (l.map (Msg.weight k)).sum

def postsWeight (k : Nat) (posts : Posts) : Nat :=
  (posts.map fun e => e.2.weight k).sum

/-- An absent piece pays for the request that it will be asked for with. -/
def SyncPieceBitfield.weight (k : Nat) (own : SyncPieceBitfield Sid) : Nat :=
  (40 * k + 21) * own.sv.count .absent

def SessionCollection.sids (sc : SessionCollection) : Finset Sid :=
  (sc.ss.map Sn.s).toFinset

/-- The work left in a process; none is left once it has stopped. -/
def Proc.load (k : Nat) (p : Proc) : Nat :=
  if p.sh.halt.isSome then 0
  else 1 + p.sh.own.weight k + p.sh.sc.gcBq.length +
    p.sh.sc.sids.sum fun t => (p.sess t).weight k

/-- The step continues what a message, a tick or a new session has started. -/
def Act.works : Act → Bool
  | .session _ (.create _ _) | .session _ (.received _)
  | .session _ (.readFails _) | .pnTick _ | .optTick _ | .exit => false
  | _ => true

def Act.ticks : Act → Bool
  | .pnTick _ | .optTick _ => true
  | _ => false

def Act.creates : Act → Bool
  | .session _ (.create _ _) => true
  | _ => false

theorem ticks_of_works {a : Act} (h : a.works = true) : a.ticks = false := by
  cases a with
  | pnTick _ | optTick _ => cases h
  | _ => rfl

def Act.inputs : Act → List Msg
  | .session _ a => a.input
  | _ => []

def Proc.outputs (p : Proc) : Act → List Msg
  | .session s a => (p.sessionEffect s a).out
  | _ => []

@[simp] theorem weightOf_nil (k : Nat) : weightOf k [] = 0 := rfl

@[simp] theorem weightOf_cons (k : Nat) (e : Event) (es : List Event) :
    weightOf k (e :: es) = e.weight k + weightOf k es := by
  simp [weightOf]

@[simp] theorem weightOf_append (k : Nat) (a b : List Event) :
    weightOf k (a ++ b) = weightOf k a + weightOf k b := by
  simp [weightOf]

@[simp] theorem burden_nil (k : Nat) : burden k [] = 0 := rfl

@[simp] theorem burden_cons (k : Nat) (m : Msg) (l : List Msg) :
    burden k (m :: l) = m.weight k + burden k l := by
  simp [burden]

@[simp] theorem burden_append (k : Nat) (a b : List Msg) :
    burden k (a ++ b) = burden k a + burden k b := by
  simp [burden]

@[simp] theorem postsWeight_nil (k : Nat) : postsWeight k [] = 0 := rfl

@[simp] theorem postsWeight_cons (k : Nat) (e : Sid × Event) (posts : Posts) :
    postsWeight k (e :: posts) = e.2.weight k + postsWeight k posts := by
  simp [postsWeight]

@[simp] theorem postsWeight_append (k : Nat) (a b : Posts) :
    postsWeight k (a ++ b) = postsWeight k a + postsWeight k b := by
  simp [postsWeight]

theorem Event.weight_pos (k : Nat) (e : Event) : 2 ≤ e.weight k := by
  cases e
  all_goals
    simp only [Event.weight]
    omega

theorem Msg.weight_pos (k : Nat) (m : Msg) : 1 ≤ m.weight k := by
  unfold Msg.weight
  repeat' split
  all_goals omega

theorem Msg.weight_le (k : Nat) (m : Msg) : m.weight k ≤ 40 * k + 20 := by
  cases m with
  | handshakeMsg id =>
      simp only [Msg.weight]
      omega
  | actual m =>
      cases m
      all_goals
        simp only [Msg.weight, scanned, Event.weight]
        omega

@[simp] theorem Session.weight_enqAll (k : Nat) (x : Session)
    (es : List Event) :
    (x.enqAll es).weight k = x.weight k + weightOf k es := by
  simp only [Session.weight, Session.enqAll_pc, Session.enqAll_eq,
    weightOf_append]
  omega

theorem length_le_burden (k : Nat) (l : List Msg) : l.length ≤ burden k l := by
  induction l with
  | nil => exact Nat.zero_le _
  | cons m l ih =>
      have hpos := m.weight_pos k
      simp only [List.length_cons, burden_cons]
      omega

theorem burden_le (k : Nat) (l : List Msg) :
    burden k l ≤ (40 * k + 20) * l.length := by
  induction l with
  | nil => exact Nat.zero_le _
  | cons m l ih =>
      have hle := m.weight_le k
      simp only [List.length_cons, burden_cons, Nat.mul_succ]
      omega

namespace SessionCollection

variable {sc sc' : SessionCollection} {v : Sid → Session} {posts : Posts}
  {addr : Nat}

theorem chokeCmd_weight (k : Nat) (e : Sn) :
    postsWeight k (chokeCmd v e) ≤ 5 := by
  unfold chokeCmd
  split <;> simp [Event.weight]

theorem unchokeCmd_weight (k : Nat) (e : Sn) :
    postsWeight k (unchokeCmd v e) ≤ 7 := by
  unfold unchokeCmd
  split <;> simp [Event.weight]

theorem tryPreempt_weight (k : Nat)
    (h : sc.tryPreempt v addr = .ok (sc', posts)) :
    postsWeight k posts ≤ 7 := by
  unfold tryPreempt at h
  repeat' split at h
  all_goals cases h
  all_goals first
    | exact unchokeCmd_weight k _
    | simp

theorem relinquish_weight (k : Nat)
    (h : sc.relinquish v addr = .ok (sc', posts)) :
    postsWeight k posts ≤ 12 := by
  have hreplace : postsWeight k (sc.replacementCmd v) ≤ 7 := by
    unfold replacementCmd
    split
    · simp
    · exact unchokeCmd_weight k _
  unfold relinquish at h
  repeat' split at h
  all_goals cases h
  · rename_i e _ _
    have hchoke := chokeCmd_weight (v := v) k e
    rw [postsWeight_append]
    omega
  · rename_i e _ _ _
    have hchoke := chokeCmd_weight (v := v) k e
    rw [postsWeight_append]
    omega
  · simp

end SessionCollection

namespace Proc

variable {p p' : Proc} {s t : Sid} {k : Nat}

/-- The session, its events and messages and the shared state after a step of
`s` weigh less than before it, or the process stops. -/
inductive Spends (k : Nat) (p : Proc) (s : Sid) (paid : Nat) (e : Effect) : Prop
  | halted (halt : e.sh.halt.isSome = true) (out : e.out = [])
  | spent (halt : e.sh.halt = p.sh.halt) (ss : e.sh.sc.ss = p.sh.sc.ss)
      (less : e.after.weight k + postsWeight k e.posts + burden k e.out +
          e.sh.own.weight k + e.sh.sc.gcBq.length + 1 ≤
        (p.sess s).weight k + p.sh.own.weight k + p.sh.sc.gcBq.length + paid)

theorem spends_handle {sh : Shared} {x : Session} {e : Event}
    (hsh : p.sh = sh) (hx : p.sess s = x) (hpc : x.pc = .handle e) :
    Spends k p s 0 (handle sh x e) := by
  cases e
  all_goals
    simp only [handle]
    repeat' split
  all_goals first
    | exact .halted rfl rfl
    | refine .spent (by rw [hsh]) (by rw [hsh]) ?_
  all_goals
    simp only [hsh, hx, Session.weight, Effect.after, hpc, Pc.weight,
      Event.weight, Session.goto, Session.took, burden_cons, burden_nil,
      Msg.weight, scanned, postsWeight_nil]
    omega

theorem spends_collection {r : Except Panic (SessionCollection × Posts)}
    {pc : Pc} {out : List Msg}
    (h : ∀ sc posts, r = .ok (sc, posts) →
      (∃ pnSet opt, sc = { p.sh.sc with pnSet := pnSet, opt := opt }) ∧
        pc.weight k + postsWeight k posts + burden k out + 1 ≤
          (p.sess s).pc.weight k) :
    Spends k p s 0 (withCollection p.sh (p.sess s) r pc out) := by
  unfold withCollection
  split
  · exact .halted rfl rfl
  · rename_i sc posts
    obtain ⟨⟨pnSet, opt, rfl⟩, hle⟩ := h _ _ rfl
    refine .spent rfl rfl ?_
    simp only [Session.weight, Effect.after, Session.goto]
    omega

theorem spends_drain (hpc : (p.sess s).pc = .drain) :
    Spends k p s 0 (drainStep p.sh (p.sess s)) := by
  unfold drainStep
  split
  · refine .spent rfl rfl ?_
    simp only [Session.weight, Effect.after, Session.goto, hpc, Pc.weight,
      postsWeight_nil, burden_nil]
    omega
  · rename_i e rest heq
    have hpos := e.weight_pos k
    have hhave : ∀ i, (Event.bcastHave i).weight k = 38 := fun _ => rfl
    split
    all_goals
      refine .spent rfl rfl ?_
      simp only [Session.weight, Effect.after, Session.goto, discard, heq, hpc,
        Pc.weight, hhave, weightOf_cons, postsWeight_nil, burden_nil]
      omega

theorem spends_await (hpc : (p.sess s).pc = .awaitTearDown)
    (hrun : (p.sess s).eq.isEmpty = false) :
    Spends k p s 0 (awaitStep p.sh (p.sess s)) := by
  unfold awaitStep
  split
  · rename_i heq
    simp [heq] at hrun
  · rename_i e rest heq
    have hpos := e.weight_pos k
    split
    all_goals
      refine .spent rfl rfl ?_
      simp only [Session.weight, Effect.after, Session.goto, discard, heq, hpc,
        Pc.weight, weightOf_cons, postsWeight_nil, burden_nil]
      omega

theorem weight_setRequested {own : SyncPieceBitfield Sid} {i : Nat}
    (h : own.sv[i]? = some .absent) :
    (own.setRequested i).weight k + (40 * k + 21) = own.weight k := by
  obtain ⟨hi, hget⟩ := List.getElem?_eq_some_iff.mp h
  have hpos : 0 < own.sv.count .absent :=
    List.count_pos_iff.mpr (hget ▸ List.getElem_mem hi)
  simp only [SyncPieceBitfield.weight, SyncPieceBitfield.setRequested,
    List.count_set hi, hget]
  simp only [BEq.rfl, if_true]
  rw [← Nat.mul_succ]
  congr 1
  simp
  omega

theorem weight_markOwned {own : SyncPieceBitfield Sid} {i : Nat}
    (h : Taken own.sv i) : (own.markOwned i).weight k = own.weight k := by
  have hi : i < own.sv.length := by
    rcases h with h | h <;> exact (List.getElem?_eq_some_iff.mp h).1
  have hget : own.sv[i] ≠ .absent := by
    intro habs
    rcases h with h | h
    all_goals
      rw [List.getElem?_eq_getElem hi, habs] at h
      cases h
  simp [SyncPieceBitfield.weight, SyncPieceBitfield.markOwned,
    List.count_set hi, hget]

theorem spends_protocol {c : Choice} (hrun : runnable p s = true)
    (hk : p.sh.sc.ss.length ≤ k) (hl : OwnLocal p.sh s (p.sess s)) :
    Spends k p s 0 (protocol p s c) := by
  cases hpc : (p.sess s).pc with
  | absent | recvHandshake | recvBitfield | ended =>
      simp [runnable, hpc] at hrun
  | handle e =>
      simp only [protocol, hpc]
      exact spends_handle rfl rfl hpc
  | bcastNext i rest =>
      cases rest with
      | nil =>
          simp only [protocol, hpc]
          refine .spent rfl rfl ?_
          simp only [Session.weight, Effect.after, Session.goto, hpc]
          split <;> simp only [Pc.weight, List.length_nil, postsWeight_nil, burden_nil] <;>
            omega
      | cons t rest =>
          simp only [protocol, hpc]
          split
          all_goals
            refine .spent rfl rfl ?_
            simp [Session.weight, Effect.after, Session.goto, hpc, Pc.weight]
            omega
  | preempt =>
      simp only [protocol, hpc]
      refine spends_collection fun sc posts h => ⟨tryPreempt_slots h, ?_⟩
      have hposts := SessionCollection.tryPreempt_weight k h
      simp only [hpc, Pc.weight, burden_nil]
      omega
  | relinquish =>
      simp only [protocol, hpc]
      refine spends_collection fun sc posts h => ⟨relinquish_slots h, ?_⟩
      have hposts := SessionCollection.relinquish_weight k h
      simp only [hpc, Pc.weight, burden_cons, burden_nil, Msg.weight, scanned,
        Event.weight]
      omega
  | finalRelinquish =>
      simp only [protocol, hpc]
      refine spends_collection fun sc posts h => ⟨relinquish_slots h, ?_⟩
      have hposts := SessionCollection.relinquish_weight k h
      simp only [hpc, Pc.weight, burden_nil]
      omega
  | setRequested i =>
      -- the piece that is no longer absent pays for the request and its answer
      simp only [OwnLocal, hpc] at hl
      have hpaid := weight_setRequested (k := k) hl.2
      simp only [protocol, hpc]
      split
      · refine .spent rfl rfl ?_
        simp only [Session.weight, Effect.after, Session.goto, hpc, Pc.weight,
          postsWeight_nil, burden_nil]
        omega
      · exact .halted rfl rfl
  | markOwned i =>
      simp only [OwnLocal, hpc] at hl
      have hkept := weight_markOwned (k := k) hl.2
      simp only [protocol, hpc]
      refine .spent rfl rfl ?_
      simp only [Session.weight, Effect.after, Session.goto, hpc, Pc.weight,
        postsWeight_nil, burden_nil]
      omega
  | bcastLock i =>
      -- the place pays for `k` turns, and there are at most `k` sessions
      simp only [protocol, hpc]
      refine .spent rfl rfl ?_
      simp [Session.weight, Effect.after, Session.goto, hpc, Pc.weight]
      omega
  | bcastEnq i t rest | bcastWait i t rest =>
      simp only [protocol, hpc]
      refine .spent rfl rfl ?_
      repeat' split
      all_goals
        simp [Session.weight, Effect.after, Session.goto, hpc, Pc.weight,
          Event.weight]
        try omega
  | markReady =>
      simp only [protocol, hpc]
      refine .spent rfl rfl ?_
      cases (p.sess s).bfMsg
      all_goals simp [Session.weight, Effect.after, hpc, Pc.weight, Msg.weight, scanned]
      all_goals omega
  | loop =>
      simp only [runnable, hpc, Bool.or_eq_true, Bool.not_eq_true'] at hrun
      simp only [protocol, hpc]
      split
      · refine .spent rfl rfl ?_
        simp only [Session.weight, Effect.after, Session.goto, hpc, Pc.weight,
          postsWeight_nil, burden_nil]
        omega
      · rename_i hdone
        split
        · rename_i heq
          rcases hrun with hrun | hrun
          · exact absurd hrun hdone
          · simp [heq] at hrun
        · rename_i e rest heq
          refine .spent rfl rfl ?_
          simp only [Session.weight, Effect.after, heq, hpc, Pc.weight,
            weightOf_cons, postsWeight_nil, burden_nil]
          omega
  | drain =>
      simp only [protocol, hpc]
      exact spends_drain hpc
  | awaitTearDown =>
      simp only [runnable, hpc, Bool.not_eq_true'] at hrun
      simp only [protocol, hpc]
      exact spends_await hpc hrun
  | _ =>
      simp only [protocol, hpc, withDifference]
      repeat' split
      all_goals first
        | exact .halted rfl rfl
        | refine .spent rfl rfl ?_
      all_goals
        simp [Session.weight, Effect.after, Session.goto, hpc, Pc.weight,
          Msg.weight, scanned, Event.weight, SyncPieceBitfield.weight, SyncPieceBitfield.countOwned]
        try omega

theorem spends_sessionEffect {a : SessionAct}
    (hen : p.sessionEnabled s a = true)
    (hworks : (Act.session s a).works = true)
    (hk : p.sh.sc.ss.length ≤ k) (hl : OwnLocal p.sh s (p.sess s)) :
    Spends k p s (burden k a.input) (p.sessionEffect s a) := by
  cases a with
  | create addr epid => cases hworks
  | received n => cases hworks
  | readFails h => cases hworks
  | thread c => exact spends_protocol hen hk hl
  | recvHandshake id =>
      simp only [sessionEnabled, decide_eq_true_eq] at hen
      simp only [sessionEffect]
      split
      · exact .halted rfl rfl
      · refine .spent rfl rfl ?_
        simp [Session.weight, Effect.after, Session.goto, hen, Pc.weight,
          SessionAct.input, Msg.weight]
  | recvBitfield m =>
      simp only [sessionEnabled, decide_eq_true_eq] at hen
      simp only [sessionEffect]
      split
      · refine .spent rfl rfl ?_
        simp [Session.weight, Effect.after, Session.took, hen, Pc.weight,
          SessionAct.input, Msg.weight, scanned]
      · exact .halted rfl rfl
  | scan m =>
      simp only [sessionEffect]
      split
      · rename_i e he
        refine .spent rfl rfl ?_
        simp only [Session.weight, Effect.after, SessionAct.input, burden_cons,
          burden_nil, Msg.weight, he, postsWeight_cons, postsWeight_nil]
        omega
      · exact .halted rfl rfl

theorem sum_postsTo_le (S : Finset Sid) (posts : Posts) :
    (S.sum fun t => weightOf k (postsTo t posts)) ≤ postsWeight k posts := by
  induction posts with
  | nil => simp
  | cons e posts ih =>
      have hsplit : ∀ t, weightOf k (postsTo t (e :: posts)) =
          (if e.1 = t then e.2.weight k else 0) +
            weightOf k (postsTo t posts) := by
        intro t
        rw [postsTo_cons]
        split <;> simp
      have hone : (S.sum fun t => if e.1 = t then e.2.weight k else 0) ≤
          e.2.weight k := by
        rw [Finset.sum_ite_eq]
        split <;> omega
      simp only [hsplit, Finset.sum_add_distrib, postsWeight_cons]
      omega

theorem sum_moved {S : Finset Sid} {e : Effect} (hs : s ∈ S) :
    (S.sum fun t => (p.moved s e t).weight k) + (p.sess s).weight k =
      (S.sum fun t => (p.sess t).weight k) + e.after.weight k := by
  have hrest : ((S.erase s).sum fun t => (p.moved s e t).weight k) =
      (S.erase s).sum fun t => (p.sess t).weight k := by
    apply Finset.sum_congr rfl
    intro t ht
    rw [moved_of_ne (Finset.ne_of_mem_erase ht)]
  rw [← Finset.add_sum_erase S _ hs, hrest, moved_self,
    ← Finset.add_sum_erase S (fun t => (p.sess t).weight k) hs]
  omega

theorem sum_commit {S : Finset Sid} {e : Effect} (hs : s ∈ S) :
    (S.sum fun t => ((p.commit s e).sess t).weight k) +
        (p.sess s).weight k ≤
      (S.sum fun t => (p.sess t).weight k) + e.after.weight k +
        postsWeight k e.posts := by
  have hposts := sum_postsTo_le (k := k) S e.posts
  have hmoved := sum_moved (k := k) (p := p) (e := e) hs
  simp only [commit_sess, Session.weight_enqAll, Finset.sum_add_distrib]
  omega

theorem mem_sids {e : Sn} (h : e ∈ p.sh.sc.ss) : e.s ∈ p.sh.sc.sids :=
  List.mem_toFinset.mpr (List.mem_map_of_mem h)

theorem mem_sids_of_enabled {a : SessionAct} (hlife : Lifecycle p)
    (hen : p.sessionEnabled s a = true)
    (hworks : (Act.session s a).works = true) : s ∈ p.sh.sc.sids := by
  have hlive : p.live s = true → s ∈ p.sh.sc.sids := by
    intro h
    obtain ⟨e, he, rfl⟩ := live_iff.mp h
    exact mem_sids he
  have hstands : (p.sess s).pc ≠ .absent → (p.sess s).pc ≠ .ended →
      s ∈ p.sh.sc.sids := fun h h' => mem_sids (hlife.live s h h')
  cases a with
  | create addr epid => cases hworks
  | received n => cases hworks
  | thread c =>
      simp only [sessionEnabled] at hen
      refine hstands ?_ ?_
      all_goals
        intro hpc
        simp [runnable, hpc] at hen
  | recvHandshake id | recvBitfield m =>
      simp only [sessionEnabled, decide_eq_true_eq] at hen
      exact hstands (by simp [hen]) (by simp [hen])
  | scan m =>
      simp only [sessionEnabled, Bool.and_eq_true] at hen
      exact hlive hen.2
  | readFails h => cases hworks

theorem sids_subset (h : p'.sh.sc.ss.Subperm p.sh.sc.ss) :
    p'.sh.sc.sids ⊆ p.sh.sc.sids := by
  intro t ht
  obtain ⟨e, he, rfl⟩ := List.mem_map.mp (List.mem_toFinset.mp ht)
  exact mem_sids (h.subset he)

theorem load_commit {e : Effect} {paid : Nat} (hrun : p.sh.halt = none)
    (hs : s ∈ p.sh.sc.sids) (h : Spends k p s paid e) :
    (p.commit s e).load k + burden k e.out + 1 ≤ p.load k + paid := by
  cases h with
  | halted halt out =>
      simp only [load, commit_sh, halt, hrun, out, if_true, burden_nil,
        Option.isSome_none, Bool.false_eq_true, if_false]
      omega
  | spent halt ss less =>
      have hsum := sum_commit (k := k) (p := p) (e := e) hs
      have hsids : e.sh.sc.sids = p.sh.sc.sids := by
        rw [SessionCollection.sids, ss]
        rfl
      simp only [load, commit_sh, halt, hrun, hsids, Option.isSome_none,
        Bool.false_eq_true, if_false]
      omega

theorem load_pos (hrun : p.sh.halt = none) : 1 ≤ p.load k := by
  simp only [load, hrun, Option.isSome_none, Bool.false_eq_true, if_false]
  omega

theorem load_haltWith (h : Halt) : (p.haltWith h).load k = 0 := rfl

theorem load_cleanedUp (hrun : p.sh.halt = none)
    (hen : p.sh.sc.gcBq.isEmpty = false) :
    (p.cleanedUp p.sh.sc.cleanUp).load k + 1 ≤ p.load k := by
  have hpos := load_pos (k := k) hrun
  unfold SessionCollection.cleanUp
  split
  · rename_i hgc
    simp [hgc] at hen
  · rename_i addr rest hgc
    split
    · exact hpos
    · rename_i e hfind
      have hsub : (((p.sh.sc.ss.erase e).map Sn.s).toFinset).sum
            (fun t => (p.sess t).weight k) ≤
          p.sh.sc.sids.sum fun t => (p.sess t).weight k := by
        refine Finset.sum_le_sum_of_subset fun t ht => ?_
        obtain ⟨e', he', rfl⟩ := List.mem_map.mp (List.mem_toFinset.mp ht)
        exact mem_sids (List.mem_of_mem_erase he')
      simp only [load, cleanedUp, hrun, SessionCollection.sids, hgc,
        List.length_cons, Option.isSome_none, Bool.false_eq_true, if_false]
          at hsub ⊢
      omega

theorem load_ticked {r : Option (SessionCollection × Posts)} {n : Nat}
    (h : ∀ sc posts, r = some (sc, posts) → sc.sids = p.sh.sc.sids ∧
      sc.gcBq = p.sh.sc.gcBq ∧ postsWeight k posts ≤ n) :
    (p.ticked r).load k ≤ p.load k + n := by
  match r with
  | none => exact Nat.zero_le _
  | some (sc, posts) =>
      obtain ⟨hsids, hgc, hle⟩ := h sc posts rfl
      have hsum := sum_postsTo_le (k := k) p.sh.sc.sids posts
      have hsess : ∀ t, (post p.sess posts t).weight k =
          (p.sess t).weight k + weightOf k (postsTo t posts) := fun t =>
        Session.weight_enqAll ..
      simp only [load, ticked, hsids, hgc, hsess, Finset.sum_add_distrib]
      split
      · exact Nat.zero_le _
      · omega

theorem flatMap_weight {f : Sn → Posts} {n : Nat}
    (h : ∀ e, postsWeight k (f e) ≤ n) (l : List Sn) :
    postsWeight k (l.flatMap f) ≤ n * l.length := by
  induction l with
  | nil => exact Nat.zero_le _
  | cons e l ih =>
      have he := h e
      simp only [List.flatMap_cons, postsWeight_append, List.length_cons,
        Nat.mul_succ]
      omega

theorem load_pnTick {n : Nat} {order : List Sn} (hseats : Seats n p)
    (horder : order.Perm p.sh.sc.ss) :
    (p.ticked (p.sh.sc.pnAlgorithm p.sess order)).load k ≤
      p.load k + 12 * (n + 1) := by
  have hold : (SortedVec.differenceItems Sn.addr p.sh.sc.pnSet.items
      (p.sh.sc.newPnSet p.sess order).items).length ≤ p.sh.sc.pnSet.items.length :=
    (SortedVec.differenceItems_sublist _ _).length_le
  have hsize : p.sh.sc.pnSet.items.length ≤ n := hseats.nPn ▸ hseats.orderly.1
  have hnew : (p.sh.sc.newPnSet p.sess order).items.length ≤ n :=
    hseats.nPn ▸ p.sh.sc.size_newPnSet_le order
  have hchoke := flatMap_weight (k := k)
    (SessionCollection.chokeCmd_weight (v := p.sess) k)
    (p.sh.sc.supplanted p.sess order).items
  have hunchoke := flatMap_weight (k := k)
    (SessionCollection.unchokeCmd_weight (v := p.sess) k)
    (p.sh.sc.newPnSet p.sess order).items
  refine load_ticked fun sc posts h => ?_
  unfold SessionCollection.pnAlgorithm at h
  split at h
  swap
  · contradiction
  cases h
  refine ⟨List.toFinset_eq_of_perm _ _ (horder.map Sn.s), rfl, ?_⟩
  have hle : (p.sh.sc.supplanted p.sess order).items.length ≤ n :=
    hold.trans hsize
  rw [postsWeight_append]
  omega

theorem load_optTick (n rnd : Nat) :
    (p.ticked (p.sh.sc.optAlgorithm p.sess rnd)).load k ≤
      p.load k + 12 * (n + 1) := by
  refine load_ticked fun sc posts h => ?_
  unfold SessionCollection.optAlgorithm at h
  split at h
  · cases h
    simp
  · rename_i e _
    have hunchoke :=
      SessionCollection.unchokeCmd_weight (v := p.sess) k e
    split at h
    · cases h
      exact ⟨rfl, rfl, by omega⟩
    · rename_i o _
      have hchoke := SessionCollection.chokeCmd_weight (v := p.sess) k o
      split at h
      · cases h
        refine ⟨rfl, rfl, ?_⟩
        rw [postsWeight_append]
        omega
      · contradiction

theorem load_received {n : Nat} :
    (p.commit s (p.sessionEffect s (.received n))).load k = p.load k := by
  have hsess : ∀ t, ((p.commit s (p.sessionEffect s (.received n))).sess t).weight
      k = (p.sess t).weight k := by
    intro t
    by_cases hts : t = s
    · subst t
      rw [commit_self]
      simp [sessionEffect, Effect.after, Session.weight]
    · rw [commit_of_ne hts]
      simp [sessionEffect]
  have hsh : (p.sessionEffect s (.received n)).sh = p.sh := rfl
  simp only [load, hsess, commit_sh, hsh]

def cost (k n : Nat) (a : Act) : Nat :=
  burden k a.inputs + if a.ticks then 12 * (n + 1) else 0

/-- What a step writes and the step itself are paid for by the load, by the
messages that the step reads or by the tick of a timer. -/
theorem load_step {cfg : Config} {a : Act} (h : Reachable cfg p)
    (hk : p.sh.sc.ss.length ≤ k) (hcreate : a.creates = false)
    (hstep : p.step a = some p') :
    p'.load k + burden k (p.outputs a) + (if a.works then 1 else 0) ≤
      p.load k + cost k cfg.numPn a := by
  have hlife := lifecycle_reachable h
  have hown := owning_reachable h
  have hseats := seats_reachable h
  obtain ⟨hen, rfl⟩ := step_eq_some.mp hstep
  simp only [enabled, Bool.and_eq_true, Option.isNone_iff_eq_none] at hen
  obtain ⟨hrun, hen⟩ := hen
  cases a with
  | session s act =>
      by_cases hworks : (Act.session s act).works = true
      · have hload := load_commit hrun
          (mem_sids_of_enabled hlife hen hworks)
          (spends_sessionEffect hen hworks hk (hown.locals s))
        rw [if_pos hworks]
        exact hload
      · cases act with
        | received n =>
            have hload : (p.next (.session s (.received n))).load k = p.load k :=
              load_received
            rw [hload]
            exact Nat.le_refl _
        | readFails h =>
            have hload : (p.next (.session s (.readFails h))).load k = 0 := rfl
            rw [hload]
            simp [outputs, sessionEffect, Act.works]
        | create addr epid => cases hcreate
        | _ => exact absurd rfl hworks
  | pnTick order =>
      simp only [Bool.and_eq_true, decide_eq_true_eq] at hen
      have hload := load_pnTick (k := k) hseats hen.2.1
      simpa [cost, outputs, Act.ticks, Act.works, Act.inputs, next] using hload
  | optTick rnd =>
      have hload := load_optTick (p := p) (k := k) cfg.numPn rnd
      simpa [cost, outputs, Act.ticks, Act.works, Act.inputs, next] using hload
  | cleanUp =>
      simp only [Bool.and_eq_true, Bool.not_eq_true'] at hen
      have hload := load_cleanedUp (k := k) hrun hen.1.2
      simpa [cost, outputs, Act.ticks, Act.works, Act.inputs, next] using hload
  | exit =>
      have hload : (p.next .exit).load k = 0 := load_haltWith _
      rw [hload]
      simp [outputs, Act.works]

theorem ss_step {a : Act} (hcreate : a.creates = false)
    (hstep : p.step a = some p') : p'.sh.sc.ss.Subperm p.sh.sc.ss := by
  obtain ⟨-, ⟨s, act, rfl, hen, rfl⟩ | hb⟩ := step_cases hstep
  · rw [commit_sh]
    cases lifeStep_sessionEffect hen with
    | created addr act' =>
        obtain ⟨epid, rfl⟩ := act'
        cases hcreate
    | kept absent ended addr ss => exact ss ▸ .refl _
    | notified stands goes addr ss => exact ss ▸ .refl _
  · cases hb.life with
    | kept ss => exact ss.subperm
    | erased e queued found ss => exact ss ▸ (List.erase_sublist ..).subperm

theorem works_ranked (cfg : Config) (k : Nat) :
    Ranked (recorded step outputs) (fun a => a.creates = false)
      (fun q => Reachable cfg q.1 ∧ q.1.sh.sc.ss.length ≤ k)
      (fun a => if a.works then 1 else 0) (cost k cfg.numPn)
      fun q => q.1.load k + burden k q.2 where
  keeps hq hnew hstep := by
    obtain ⟨hnext, -⟩ := recorded_eq_some.mp hstep
    exact ⟨.tail hq.1 trivial hnext, (ss_step hnew hnext).length_le.trans hq.2⟩
  pays hq hnew hstep := by
    obtain ⟨hnext, hout⟩ := recorded_eq_some.mp hstep
    have hload := load_step hq.1 hq.2 hnew hnext
    rw [hout, burden_append]
    omega

theorem sum_cost (k n : Nat) (as : List Act) :
    (as.map (cost k n)).sum = burden k (as.flatMap Act.inputs) +
      12 * (n + 1) * as.countP Act.ticks := by
  unfold cost
  generalize 12 * (n + 1) = tick
  induction as with
  | nil => rfl
  | cons a as ih =>
      simp only [List.map_cons, List.sum_cons, List.flatMap_cons,
        burden_append, List.countP_cons, ih, Nat.mul_add]
      split
      all_goals omega

theorem sum_works (as : List Act) :
    (as.map fun a => if a.works then 1 else 0).sum = as.countP Act.works := by
  induction as with
  | nil => rfl
  | cons a as ih =>
      simp only [List.map_cons, List.sum_cons, List.countP_cons, ih]
      omega

/--
The steps that a process takes and the messages that it writes are bounded by
what it has to do at the start, the messages that it reads and the ticks of its
timers, whatever its peers send.
-/
theorem work_bounded {cfg : Config} (h : Reachable cfg p)
    (hk : p.sh.sc.ss.length ≤ k) {as : List Act}
    (hnew : ∀ a ∈ as, a.creates = false) {l : List Msg}
    (hrun : run (recorded step outputs) (p, []) as = some (p', l)) :
    as.countP Act.works + l.length ≤
      p.load k + (40 * k + 20) * (as.flatMap Act.inputs).length +
        12 * (cfg.numPn + 1) * as.countP Act.ticks := by
  have hpays := (works_ranked cfg k).run_pays ⟨h, hk⟩ hnew hrun
  have hread := burden_le k (as.flatMap Act.inputs)
  have hwritten := length_le_burden k l
  rw [sum_works, sum_cost] at hpays
  simp only [burden_nil] at hpays
  omega

def fetchRun : List Act :=
  receive 0 .unchokeMsg 5 ++ receive 0 (.pieceMsg 0 [7]) 11

def settledIn : Proc :=
  (run step (init leech) (setupRun 0 [.owned])).get (by decide)

theorem fetchRun_runs :
    (run (recorded step outputs) (settledIn, []) fetchRun).isSome = true := by
  decide

def fetched : Proc × List Msg :=
  (run (recorded step outputs) (settledIn, []) fetchRun).get fetchRun_runs

theorem fetched_run :
    run (recorded step outputs) (settledIn, []) fetchRun =
      some (fetched.1, fetched.2) :=
  (Option.some_get fetchRun_runs).symm

theorem work_bounded_fetched :
    fetched.2 = [.actual (.requestMsg 0)] ∧
      fetchRun.countP Act.works + fetched.2.length ≤
        settledIn.load 1 + (40 * 1 + 20) * (fetchRun.flatMap Act.inputs).length +
          12 * (leech.numPn + 1) * fetchRun.countP Act.ticks :=
  ⟨by decide, work_bounded (reachable_get (by decide)) (by decide) (by decide)
    fetched_run⟩

end Proc

end CntPeer
