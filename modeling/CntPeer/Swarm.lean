import Mathlib.Logic.Function.Basic
import CntPeer.Process.Channel

/-!
# A swarm

Processes that run the same program, connected by reliable links.  A session is
one end of one connection; what its mate writes arrives in order, at any time
later.  A process that has stopped takes no more steps, and its links stay.
-/

namespace CntPeer

open CntPeer.Foundation

/-- Which process holds a session, and which session is the other end. -/
structure Net (Peer : Type*) where
  owner : Sid → Peer
  mate : Sid → Sid
  mate_mate : ∀ s, mate (mate s) = s

structure Swarm (Peer : Type*) where
  proc : Peer → Proc
  /-- messages on the way to a session -/
  wire : Sid → List Msg

/-- The reads of a reliable link end well or with the thread that reads. -/
def SessionAct.reliable : SessionAct → Bool
  | .readFails h => decide (h = .crash)
  | _ => true

namespace Net

variable {Peer : Type*} [DecidableEq Peer] (net : Net Peer)

def sess (w : Swarm Peer) (s : Sid) : Session := (w.proc (net.owner s)).sess s

/-- A process steps its own sessions and reads what comes first on their
links. -/
def admits (w : Swarm Peer) (q : Peer) : Act → Bool
  | .session s a =>
      decide (net.owner s = q) && decide (a.input <+: w.wire s) && a.reliable
  | _ => true

def step (w : Swarm Peer) (l : Peer × Act) : Option (Swarm Peer) :=
  if net.admits w l.1 l.2 then
    ((w.proc l.1).step l.2).map fun p =>
      { proc := Function.update w.proc l.1 p
        wire := fun s => (w.wire s).drop (l.2.inputAt s).length ++
          (w.proc l.1).outputAt l.2 (net.mate s) }
  else none

def start (cfg : Peer → Config) : Swarm Peer where
  proc := fun q => Proc.init (cfg q)
  wire := fun _ => []

abbrev Reachable (cfg : Peer → Config) (w : Swarm Peer) : Prop :=
  Foundation.Reachable net.step (start cfg) w

variable {net} {w w' : Swarm Peer} {q : Peer} {a : Act} {s : Sid}
  {cfg : Peer → Config}

theorem step_eq_some :
    net.step w (q, a) = some w' ↔ net.admits w q a = true ∧
      ∃ p, (w.proc q).step a = some p ∧
        w' = { proc := Function.update w.proc q p
               wire := fun s => (w.wire s).drop (a.inputAt s).length ++
                 (w.proc q).outputAt a (net.mate s) } := by
  unfold step
  split
  · rename_i hadm
    simp only [Option.map_eq_some_iff, hadm, true_and]
    constructor
    · rintro ⟨p, hp, rfl⟩
      exact ⟨p, hp, rfl⟩
    · rintro ⟨p, hp, rfl⟩
      exact ⟨p, hp, rfl⟩
  · rename_i hadm
    simp [hadm]

end Net

end CntPeer
