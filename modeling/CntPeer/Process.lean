import CntPeer.Foundation.Transition
import CntPeer.Session.Protocol

/-!
# One process

The threads of one peer process: a protocol thread and a scanner thread for
each session, the two unchoking timers, the `cleanUp` thread and the thread that
creates sessions.  What the peers send is arbitrary here: the messages are part
of the labels.  An insertion into the cache always succeeds here; the runs in
which it may crash are those of `Proc.cacheMeter`.
-/

namespace CntPeer

open CntPeer.Foundation

/-- What `main` reads from the configuration and the file system. -/
structure Config where
  selfPeerId : Int
  hasFile : Bool
  file : List UInt8
  fileSize : Nat
  pieceSize : Nat
  numPn : Nat
  totalPeerCount : Nat

def Config.nPieces (cfg : Config) : Nat :=
  ceilingDiv cfg.fileSize cfg.pieceSize

inductive SessionAct where
  | create (addr : Nat) (expectedPeerId : Int)
  | thread (c : Choice)
  | recvHandshake (peerId : Int)
  | recvBitfield (m : ActualMsg)
  | scan (m : ActualMsg)
  | readFails (h : Halt)
  | received (n : Nat)

def SessionAct.input : SessionAct → List Msg
  | .recvHandshake peerId => [.handshakeMsg peerId]
  | .recvBitfield m | .scan m => [.actual m]
  | _ => []

inductive Act where
  | session (s : Sid) (a : SessionAct)
  | pnTick (order : List Sn)
  | optTick (rnd : Nat)
  | cleanUp
  /-- `wait` has returned in `main`: it may when the counter is 0, but need not,
  as a notification can be lost (`EndOfRun`) -/
  | exit

namespace Proc

def live (p : Proc) (s : Sid) : Bool := p.sh.sc.ss.any fun e => e.s = s

def sessionEnabled (p : Proc) (s : Sid) : SessionAct → Bool
  | .create addr _ =>
      p.sh.sc.m.isNone && decide ((p.sess s).pc = .absent) &&
        p.sh.sc.ss.all fun e => e.addr ≠ addr
  | .thread _ => runnable p s
  | .recvHandshake _ => decide ((p.sess s).pc = .recvHandshake)
  | .recvBitfield _ => decide ((p.sess s).pc = .recvBitfield)
  | .scan _ => (p.sess s).scanning && p.live s
  | .readFails _ =>
      decide ((p.sess s).pc = .recvHandshake) ||
        decide ((p.sess s).pc = .recvBitfield) ||
        (p.sess s).scanning && p.live s
  | .received _ => p.live s

def sessionEffect (p : Proc) (s : Sid) : SessionAct → Effect
  | .create addr expectedPeerId =>
      { sh := { p.sh with sc := { p.sh.sc with
          ss := p.sh.sc.ss ++ [⟨s, addr⟩] } }
        me := { p.sess s with
          addr := addr, expectedPeerId := expectedPeerId, pc := .handshake } }
  | .thread c => protocol p s c
  | .recvHandshake peerId =>
      let x := { p.sess s with
        peerId := some peerId
        handled := (p.sess s).handled ++ [.handshakeMsg peerId] }
      if x.expectedPeerId ≠ epidNoPreference ∧ peerId ≠ x.expectedPeerId then
        panicEffect p.sh x .unexpectedPeer
      else { sh := p.sh, me := x.goto .recvBitfield }
  | .recvBitfield m =>
      let x := p.sess s
      match m with
      | .bitfieldMsg sv =>
          let b := PieceBitfield.ofSnapshot sv
          { sh := p.sh
            me := { x.took m with
              pc := .sendInterest
              peerOwn := some b
              isDone := b.owningAll && p.sh.own.owningAll } }
      | _ => panicEffect p.sh x .expectingBitfield
  | .scan m =>
      match scanned m with
      | .ok e => { sh := p.sh, me := p.sess s, posts := [(s, e)] }
      | .error reason => panicEffect p.sh (p.sess s) reason
  | .readFails h => { sh := { p.sh with halt := some h }, me := p.sess s }
  | .received n =>
      { sh := p.sh
        me := { p.sess s with recvBcnt := (p.sess s).recvBcnt + n } }

def postsTo (t : Sid) (posts : Posts) : List Event :=
  posts.filterMap fun e => if e.1 = t then some e.2 else none

def post (sess : Sid → Session) (posts : Posts) (t : Sid) : Session :=
  (sess t).enqAll (postsTo t posts)

def moved (p : Proc) (s : Sid) (e : Effect) (t : Sid) : Session :=
  if t = s then e.after else p.sess t

def commit (p : Proc) (s : Sid) (e : Effect) : Proc where
  sh := e.sh
  sess := post (p.moved s e) e.posts

def haltWith (p : Proc) (h : Halt) : Proc :=
  { p with sh := { p.sh with halt := some h } }

/-- A timer has run; `none` when it touched a destroyed session. -/
def ticked (p : Proc) : Option (SessionCollection × Posts) → Proc
  | none => p.haltWith .crash
  | some (sc, posts) =>
      { sh := { p.sh with sc := sc }, sess := post p.sess posts }

def cleanedUp (p : Proc) : Except Panic SessionCollection → Proc
  | .error reason => p.haltWith (.panic reason)
  | .ok sc => { p with sh := { p.sh with sc := sc } }

def enabled (p : Proc) (a : Act) : Bool :=
  p.sh.halt.isNone &&
    match a with
    | .session s a => p.sessionEnabled s a
    | .pnTick order =>
        p.sh.sc.m.isNone &&
          decide ((p.sh.sc.updateByteCounts p.sess).NthElement p.sess
            p.sh.sc.nnPn order)
    | .optTick _ => p.sh.sc.m.isNone
    | .cleanUp =>
        p.sh.sc.m.isNone && !p.sh.sc.gcBq.isEmpty && !p.sh.sc.gcDone
    | .exit => decide (p.sh.sc.nUnfinishedSession = 0)

def next (p : Proc) : Act → Proc
  | .session s a => p.commit s (p.sessionEffect s a)
  | .pnTick order => p.ticked (p.sh.sc.pnAlgorithm p.sess order)
  | .optTick rnd => p.ticked (p.sh.sc.optAlgorithm p.sess rnd)
  | .cleanUp => p.cleanedUp p.sh.sc.cleanUp
  | .exit => p.haltWith .exited

def step (p : Proc) (a : Act) : Option Proc :=
  if p.enabled a then some (p.next a) else none

/-- The state in which `main` hands over to the threads. -/
def init (cfg : Config) : Proc where
  sh :=
    { selfPeerId := cfg.selfPeerId
      own := SyncPieceBitfield.init cfg.nPieces cfg.hasFile
      repo :=
        { file := if cfg.hasFile then cfg.file else []
          writable := !cfg.hasFile
          size := if cfg.hasFile then cfg.file.length else cfg.fileSize
          pieceSize := cfg.pieceSize
          cache := [] }
      log := if cfg.hasFile then [.fileDownloaded] else []
      sc := SessionCollection.init (cfg.totalPeerCount - 1) cfg.numPn
      mReq := none
      halt := none }
  sess := fun _ => Session.fresh

/-- Runs of one process against arbitrary peers. -/
abbrev Reachable (cfg : Config) (p : Proc) : Prop :=
  Foundation.Reachable step (init cfg) p

end Proc

end CntPeer
