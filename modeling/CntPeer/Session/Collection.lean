import CntPeer.Foundation.SortedVec
import CntPeer.Session.State

/-!
# The session collection

The bodies under `sc.m` that choose whom to upload to.  They read the sessions
through a view `v`, edit the slots and return the commands they enqueue.
-/

namespace CntPeer

open CntPeer.Foundation

/-- A session as `ss` owns it; `addr` is where it lives. -/
structure Sn where
  s : Sid
  addr : Nat
  deriving DecidableEq

abbrev SnRefSet := SortedVec Sn.addr

/-- Events and the sessions whose queues they go to. -/
abbrev Posts := List (Sid × Event)

structure SessionCollection where
  ss : List Sn
  pnSet : SnRefSet
  opt : Option Sn
  /-- the thread that holds `m` across steps, in `broadcastHave` -/
  m : Option Sid
  nUnfinishedSession : Int
  nPn : Nat
  gcBq : List Nat
  gcDone : Bool
  neo : Sid → Nat
  old : Sid → Nat

def chokeCmd (v : Sid → Session) (e : Sn) : Posts :=
  if (v e.s).isActive then [(e.s, .timerChoke)] else []

def unchokeCmd (v : Sid → Session) (e : Sn) : Posts :=
  if (v e.s).isActive then [(e.s, .timerUnchoke)] else []

namespace SessionCollection

variable (sc : SessionCollection) (v : Sid → Session)

def init (nUnfinishedSession : Int) (nPn : Nat) : SessionCollection where
  ss := []
  pnSet := SortedVec.empty
  opt := none
  m := none
  nUnfinishedSession := nUnfinishedSession
  nPn := nPn
  gcBq := []
  gcDone := false
  neo := fun _ => 0
  old := fun _ => 0

def updateByteCounts : SessionCollection :=
  let live := sc.ss.map Sn.s
  { sc with
    old := fun s => if s ∈ live then sc.neo s else sc.old s
    neo := fun s => if s ∈ live then (v s).recvBcnt else sc.neo s }

/-- The comparator of `pnAlgorithm`, after the updates. -/
def precedes (a b : Sn) : Bool :=
  if !(v a.s).isActive then false
  else if !(v b.s).isActive then true
  else if (v a.s).peerInterest = .unknown ∨
      (v a.s).peerInterest = .notInterested then false
  else if (v a.s).peerInterest = .interested ∧
      ((v b.s).peerInterest = .notInterested ∨
        (v b.s).peerInterest = .unknown) then true
  else decide ((sc.neo a.s : Int) - sc.old a.s > sc.neo b.s - sc.old b.s)

/-- What `std::nth_element` leaves: a permutation in which nothing from
position `n` on precedes anything before it. -/
def NthElement (n : Nat) (order : List Sn) : Prop :=
  order.Perm sc.ss ∧
    ∀ a ∈ order.take n, ∀ b ∈ order.drop n, sc.precedes v b a = false

instance (n : Nat) (order : List Sn) : Decidable (sc.NthElement v n order) :=
  inferInstanceAs (Decidable (_ ∧ _))

def nnPn : Nat := min sc.nPn sc.ss.length

def selected (order : List Sn) : List Sn :=
  (order.take sc.nnPn).filter fun e => (v e.s).isActive

def newPnSet (order : List Sn) : SnRefSet :=
  SortedVec.empty.addAll (sc.selected v order)

def supplanted (order : List Sn) : SnRefSet :=
  sc.pnSet.difference (sc.newPnSet v order)

/-- `pnAlgorithm` once `nth_element` has arranged `ss` as `order`; `none` when
a command goes to a destroyed session. -/
def pnAlgorithm (order : List Sn) : Option (SessionCollection × Posts) :=
  if ∀ e ∈ (sc.supplanted v order).items, e ∈ sc.ss then
    some ({ sc.updateByteCounts v with
        ss := order
        pnSet := sc.newPnSet v order
        opt := if (sc.supplanted v order).isEmpty then sc.opt else none },
      (sc.supplanted v order).items.flatMap (chokeCmd v) ++
        (sc.newPnSet v order).items.flatMap (unchokeCmd v))
  else none

def eligible (e : Sn) : Bool :=
  (v e.s).isActive && decide ((v e.s).peerChoke = .choked) &&
    decide ((v e.s).peerInterest = .interested)

def lucky (rnd : Nat) : Option Sn :=
  let eligibles := sc.ss.filter (eligible v)
  eligibles[rnd % eligibles.length]?

/-- `optAlgorithm`; `none` when a command goes to a destroyed session. -/
def optAlgorithm (rnd : Nat) : Option (SessionCollection × Posts) :=
  match sc.lucky v rnd with
  | none => some (sc, [])
  | some e =>
      match sc.opt with
      | none => some ({ sc with opt := some e }, unchokeCmd v e)
      | some o =>
          if o ∈ sc.ss then
            some ({ sc with opt := some e }, unchokeCmd v e ++ chokeCmd v o)
          else none

def findAddr (addr : Nat) : Option Sn := sc.ss.find? fun e => e.addr = addr

def isOpt (addr : Nat) : Bool := sc.opt.any fun o => o.addr = addr

def tryPreempt (sRef : Nat) : Except Panic (SessionCollection × Posts) :=
  match sc.findAddr sRef with
  | none => .error .tryPreemptUnknown
  | some e =>
      if sc.pnSet.contains e then .ok (sc, [])
      else if sc.isOpt e.addr then .ok (sc, [])
      else if sc.pnSet.size < sc.nPn then
        .ok ({ sc with pnSet := sc.pnSet.add e }, unchokeCmd v e)
      else if sc.opt.isNone then
        .ok ({ sc with opt := some e }, unchokeCmd v e)
      else .ok (sc, [])

/-- The arbitrary choked interesting session that `relinquish` unchokes. -/
def replacement : Option Sn := sc.ss.find? (eligible v)

def replacementCmd : Posts :=
  match sc.replacement v with
  | none => []
  | some e => unchokeCmd v e

def relinquish (sRef : Nat) : Except Panic (SessionCollection × Posts) :=
  match sc.findAddr sRef with
  | none => .error .relinquishUnknown
  | some e =>
      if sc.pnSet.contains e then
        .ok ({ sc with pnSet := sc.pnSet.remove e },
          chokeCmd v e ++ sc.replacementCmd v)
      else if sc.isOpt e.addr then
        .ok ({ sc with opt := none }, chokeCmd v e ++ sc.replacementCmd v)
      else .ok (sc, [])

/-- One turn of the loop of `cleanUp`. -/
def cleanUp : Except Panic SessionCollection :=
  match sc.gcBq with
  | [] => .ok sc
  | addr :: rest =>
      match sc.findAddr addr with
      | none => .error .cleanUpUnknown
      | some e =>
          let ss := sc.ss.erase e
          let n := sc.nUnfinishedSession - 1
          .ok { sc with
            ss := ss
            gcBq := rest
            nUnfinishedSession := n
            gcDone := decide (ss = [] ∧ n = 0) }

variable {sc v} {e : Sn} {order : List Sn}

theorem mem_selected : e ∈ sc.selected v order ↔
    e ∈ order.take sc.nnPn ∧ (v e.s).isActive = true := by
  simp [selected]

theorem mem_newPnSet :
    e ∈ (sc.newPnSet v order).items ↔ e ∈ sc.selected v order := by
  simp [newPnSet]

end SessionCollection

end CntPeer
