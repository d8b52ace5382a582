import CntPeer.Process.Space
import CntPeer.Swarm.AtRest
import CntPeer.Swarm.Integrity

/-!
# A swarm with counted caches

Every process of the swarm counts its cache, and may crash in `ensureSpace`.  As
long as all of them run, the swarm is the one without counters.
-/

namespace CntPeer

open CntPeer.Foundation

/-- What the bounds on runs count of a step. -/
structure ActKind where
  works : Bool
  ticks : Bool
  creates : Bool

def Act.kind (a : Act) : ActKind := ⟨a.works, a.ticks, a.creates⟩

theorem Act.kind_keeping (a : Act) (cache : List CacheEntry) :
    (a.keeping cache).kind = a.kind := by
  cases a with
  | session s b => cases b <;> rfl
  | _ => rfl

namespace Proc

variable {p : Proc} {a : Act}

theorem enabled_keeping (cache : List CacheEntry) :
    p.enabled (a.keeping cache) = p.enabled a := by
  cases a with
  | session s b => cases b <;> rfl
  | _ => rfl

theorem kind_of_served {kMemLimit : Nat} {n n' : Int} {order : List CacheEntry} {a' : Act}
    (hask : (cacheMeter kMemLimit).ask p n a order = .served a' n') :
    a'.kind = a.kind := by
  rcases ask_served hask with ⟨-, rfl, -⟩ | ⟨i, d, y, -, -, -, rfl, -⟩
  · rfl
  · exact Act.kind_keeping a y.cache

theorem insertion_of_creates (h : a.creates = true) : p.insertion a = none := by
  cases a with
  | session s b =>
      cases b with
      | create _ _ => rfl
      | _ => cases h
  | _ => cases h

end Proc

namespace Net

/-- The processes of a swarm, of which each has its own cache. -/
def parts (Peer : Type*) [DecidableEq Peer] : Parts (Swarm Peer) Peer Proc Act Act where
  part w := w.proc
  put w q p := { w with proc := Function.update w.proc q p }
  act? := some
  label := id

def cacheMeter (Peer : Type*) [DecidableEq Peer] (kMemLimit : Nat) :
    Meter (Swarm Peer) (Peer → Int) (Peer × Act) (List CacheEntry) :=
  (Proc.cacheMeter kMemLimit).pool (parts Peer)

variable {Peer : Type*} [DecidableEq Peer] (net : Net Peer)

def countedStep (kMemLimit : Nat) (ok : Swarm Peer → Peer × Act → Prop)
    [∀ w l, Decidable (ok w l)] :=
  (cacheMeter Peer kMemLimit).step (checkedStep net.step ok)

abbrev CountedReachable (kMemLimit : Nat) (cfg : Peer → Config)
    (x : Swarm Peer × (Peer → Int)) : Prop :=
  Foundation.Reachable ((cacheMeter Peer kMemLimit).step net.step)
    (start cfg, fun _ => 0) x

/-- The condition does not look at what an eviction keeps. -/
def Blind (ok : Swarm Peer → Peer × Act → Prop) : Prop :=
  ∀ w q a cache, ok w (q, a) → ok w (q, a.keeping cache)

variable {net} {ok : Swarm Peer → Peer × Act → Prop} [∀ w l, Decidable (ok w l)]
  {w w' : Swarm Peer} {q r : Peer} {a : Act} {cfg : Peer → Config} {kMemLimit : Nat}
  {x x' : Swarm Peer × (Peer → Int)} {l : (Peer × Act) × List CacheEntry}
  {ls : List ((Peer × Act) × List CacheEntry)} {F : List UInt8} {size : Nat}

theorem step_eq_none :
    net.step w (q, a) = none ↔ ¬(net.admits w q a = true ∧ (w.proc q).enabled a = true) := by
  rw [← not_iff_not, not_not, ← ne_eq, Option.ne_none_iff_exists']
  constructor
  · rintro ⟨w', hstep⟩
    obtain ⟨hadm, p, hp, -⟩ := step_eq_some.mp hstep
    exact ⟨hadm, (Proc.step_eq_some.mp hp).1⟩
  · rintro ⟨hadm, hen⟩
    exact ⟨_, step_eq_some.mpr ⟨hadm, _, Proc.step_eq_some.mpr ⟨hen, rfl⟩, rfl⟩⟩

theorem admits_keeping (cache : List CacheEntry) :
    net.admits w q (a.keeping cache) = net.admits w q a := by
  cases a with
  | session s b => cases b <;> rfl
  | _ => rfl

theorem parts_step : (parts Peer).Step (Proc.cacheMeter kMemLimit) net.step Proc.step where
  part_put _ _ _ := rfl
  act?_label _ := rfl
  acts := by
    rintro w q _ a w' ⟨⟩ hstep
    exact proc_self hstep
  silent := nofun
  others hstep hr := proc_of_ne hstep hr

theorem parts_kind {p : Proc} {n n' : Int} {a a' b : Act} {order : List CacheEntry}
    (hask : (Proc.cacheMeter kMemLimit).ask p n a order = .served a' n')
    (hact : (parts Peer).act? b = some a) : ((parts Peer).label a').kind = b.kind := by
  cases hact
  exact Proc.kind_of_served hask

theorem kind_of_served {n n' : Peer → Int} {l l' : Peer × Act} {order : List CacheEntry}
    (hask : (cacheMeter Peer kMemLimit).ask w n l order = .served l' n') :
    l'.2.kind = l.2.kind :=
  Meter.pool_same parts_kind hask

theorem meter_lawful (hok : Blind ok) :
    (cacheMeter Peer kMemLimit).Lawful (checkedStep net.step ok) (fun l => l.2.kind) := by
  refine Meter.pool_lawful Proc.ask_manner parts_kind ?_
  rintro w q n a order a' n' _ hask ⟨⟩ hnone
  rcases Proc.ask_served hask with ⟨-, rfl, -⟩ | ⟨i, d, y, -, -, -, rfl, -⟩
  · exact hnone
  · refine checkedStep_none (hok w q a y.cache) (fun hnone => ?_) hnone
    change net.step w (q, a.keeping y.cache) = none at hnone
    rw [step_eq_none, admits_keeping, Proc.enabled_keeping] at hnone
    exact step_eq_none.mpr hnone

theorem broken_stops {n : Peer → Int} {l : Peer × Act} {order : List CacheEntry}
    (hask : (cacheMeter Peer kMemLimit).ask w n l order = .broken) :
    ¬Running ((cacheMeter Peer kMemLimit).broken w l) :=
  Meter.pool_not_up (D := parts Peer) (U := fun p => p.sh.halt = none)
    (fun _ _ _ => rfl) (fun _ _ _ _ _ => Proc.broken_halts) hask

theorem running_back (hstep : net.step w (q, a) = some w') (hrun : Running w') :
    Running w := by
  intro r
  by_cases hr : r = q
  · subst hr
    exact Proc.step_running (proc_self hstep)
  · rw [← proc_of_ne hstep hr]
    exact hrun r

theorem checked_back (w : Swarm Peer) (l : Peer × Act) (w' : Swarm Peer)
    (hstep : checkedStep net.step ok w l = some w') : Running w' → Running w :=
  running_back (checkedStep_eq_some.mp hstep).2

/-- At the end of a run everybody runs who has run before, and it is a run of the
swarm without counters. -/
theorem run_of_counted (hok : Blind ok)
    (hrun : run (net.countedStep kMemLimit ok) x ls = some x') (hup : Running x'.1) :
    Running x.1 ∧ ∃ as, as.map (fun l => l.2.kind) = ls.map (fun l => l.1.2.kind) ∧
      run (checkedStep net.step ok) x.1 as = some x'.1 :=
  (meter_lawful hok).run_base (fun _ _ _ _ => broken_stops) checked_back hrun hup

theorem stuck_of_counted (hok : Blind ok) {l : Peer × Act}
    (h : ∀ order, net.countedStep kMemLimit ok x (l, order) = none) :
    checkedStep net.step ok x.1 l = none :=
  (meter_lawful hok).stuck h

theorem CountedReachable.reachable (h : net.CountedReachable kMemLimit cfg x)
    (hup : Running x.1) : net.Reachable cfg x.1 :=
  Meter.reachable_base (U := Running) (fun _ _ _ _ => broken_stops)
    (fun _ _ _ => running_back) h hup

theorem CountedReachable.step (h : net.CountedReachable kMemLimit cfg x)
    (hstep : net.countedStep kMemLimit ok x l = some x') :
    net.CountedReachable kMemLimit cfg x' :=
  .tail h trivial
    (Meter.step_mono (fun _ _ _ hchecked => (checkedStep_eq_some.mp hchecked).2) hstep)

theorem CountedReachable.run (h : net.CountedReachable kMemLimit cfg x)
    (hrun : Foundation.run (net.countedStep kMemLimit ok) x ls = some x') :
    net.CountedReachable kMemLimit cfg x' :=
  run_invariant (P := fun _ => True) (fun _ _ _ h _ hstep => h.step hstep) h
    (fun _ _ => trivial) hrun

theorem CountedReachable.proc (h : net.CountedReachable kMemLimit cfg x) (q : Peer) :
    Proc.CountedReachable kMemLimit (cfg q) (x.1.proc q, x.2 q) :=
  parts_step.reachable_part h q

/-- Every cache has room for the file once for each session of its process. -/
def Ample (kMemLimit : Nat) (F : List UInt8) (w : Swarm Peer) : Prop :=
  ∀ q, ∃ k, Proc.AtMost k (w.proc q) ∧ k * F.length ≤ kMemLimit

theorem CountedReachable.serves (hc : Common F size cfg)
    (h : net.CountedReachable kMemLimit cfg x) (hup : Running x.1)
    (hroom : Ample kMemLimit F x.1) (l : Peer × Act) (order : List CacheEntry) :
    (cacheMeter Peer kMemLimit).ask x.1 x.2 l order ≠ .broken := by
  intro hbroken
  obtain ⟨a, hact, hask⟩ := Meter.pool_broken hbroken
  obtain ⟨k, hfew, hfit⟩ := hroom l.1
  rw [← (intact_reachable hc (h.reachable hup) l.1).keeps.size] at hfit
  exact Proc.ensureSpace_succeeds (h.proc l.1) (hup l.1) hfew hfit a order hask

theorem free_of_insertion {l : Peer × Act} (h : (w.proc l.1).insertion l.2 = none) :
    (cacheMeter Peer kMemLimit).Free w l := by
  refine Meter.pool_free fun a hact => ?_
  cases hact
  exact ⟨Proc.free_of_insertion h, rfl⟩

end Net

end CntPeer
