import CntPeer.Process.Apart
import CntPeer.Swarm.Download

/-!
# Swarms whose reads do not overlap

As long as no two sessions of a process fetch one piece at once, every counter is
exact, and no cache runs out of space that admits a single piece.  To wait for
the other session keeps no step back for good.
-/

namespace CntPeer

open CntPeer.Foundation

namespace Net

variable {Peer : Type*} {net : Net Peer} {w w' : Swarm Peer} {q r : Peer}
  {a : Act} {s : Sid} {cfg : Peer → Config} {F : List UInt8} {size kMemLimit : Nat}

theorem singly (hlink : Linked net cfg w) (hcon : net.Conserved w) (q : Peer) :
    (w.proc q).Singly := by
  have hheld : ∀ s i, ((w.proc q).sess s).pc.accepting = some i →
      net.owner s = q ∧ 0 < net.tokens w s i := by
    intro s i hacc
    have hpc : ((w.proc q).sess s).pc ≠ .absent := by
      intro habs
      rw [habs] at hacc
      cases hacc
    have howner := hlink.attached q s hpc
    refine ⟨howner, tokens_of_asking (asking_of_holds ?_)⟩
    rw [sess_of_owner howner]
    exact if_pos (.inr hacc)
  refine ⟨fun s i hacc => ?_, fun s t i hs ht => ?_⟩
  · obtain ⟨rfl, htok⟩ := hheld s i hacc
    exact (hcon _ i).status htok
  · obtain ⟨hs, hstok⟩ := hheld s i hs
    obtain ⟨ht, httok⟩ := hheld t i ht
    exact (hcon q i).unique hs ht hstok httok

def Exact (x : Swarm Peer × (Peer → Int)) : Prop :=
  ∀ q, (x.1.proc q).Unshared ∧ ((x.1.proc q).counted (x.2 q)).Exact

theorem exact_start : Exact (start cfg, fun _ => 0) :=
  fun _ => ⟨Proc.unshared_init, rfl⟩

variable [DecidableEq Peer]

/-- The orderly steps that make no two sessions of a process fetch one piece. -/
def Careful (q : Peer) (w : Swarm Peer) (l : Peer × Act) : Prop :=
  Orderly q w l ∧ Proc.Apart (w.proc l.1) l.2

instance (q : Peer) (w : Swarm Peer) (l : Peer × Act) : Decidable (Careful q w l) :=
  inferInstanceAs (Decidable (_ ∧ _))

omit [DecidableEq Peer] in
theorem blind_careful : Blind (Careful q) := by
  rintro w r a cache ⟨horderly, hapart⟩
  refine ⟨blind_orderly w r a cache horderly, ?_⟩
  cases a with
  | session s b =>
      cases b with
      | thread c => exact hapart
      | _ => trivial
  | _ => trivial

theorem exact_serves {x : Swarm Peer × (Peer → Int)}
    {l : (Peer × Act) × List CacheEntry} (hc : Common F size cfg)
    (hfit : min size F.length ≤ kMemLimit) (h : net.Healthy cfg x.1) (hx : Exact x) :
    (cacheMeter Peer kMemLimit).ask x.1 x.2 l.1 l.2 ≠ .broken := by
  intro hbroken
  obtain ⟨a, -, hask⟩ := Meter.pool_broken hbroken
  have hr := h.reaches.reachable
  have hkeeps := (intact_reachable hc hr l.1.1).keeps
  refine Proc.exact_serves ((linked_reachable hr).procs l.1.1) (hx l.1.1).2 ?_ hask
  rw [hkeeps.size, hkeeps.pieceSize, hc.pieceSize]
  exact hfit

/-- A step that makes no session fetch what another one does keeps the counters
exact. -/
theorem Exact.served {x : Swarm Peer × (Peer → Int)} {l m : Peer × Act}
    {order : List CacheEntry} {left : Peer → Int} (hc : Common F size cfg)
    (hfit : min size F.length ≤ kMemLimit) (hreach : net.Reachable cfg x.1)
    (hx : Exact x) (hask : (cacheMeter Peer kMemLimit).ask x.1 x.2 l order =
      .served m left)
    (hapart : Proc.Apart (x.1.proc m.1) m.2) (hstep : net.step x.1 m = some w') :
    Exact (w', left) := by
  intro r
  rcases Meter.pool_served hask with ⟨⟨⟩, -⟩ | ⟨a, a', n, -, hserved, rfl, rfl⟩
  have hlink := linked_reachable hreach
  by_cases hr : r = l.1
  · subst hr
    have hsingly := singly hlink (conserved_reachable hreach) l.1
    have hkeeps := (intact_reachable hc hreach l.1).keeps
    have hfits : min (x.1.proc l.1).sh.repo.pieceSize
        (x.1.proc l.1).sh.repo.size ≤ kMemLimit := by
      rw [hkeeps.size, hkeeps.pieceSize, hc.pieceSize]
      exact hfit
    have hproc := proc_self hstep
    obtain ⟨hunshared, hexact⟩ := hx l.1
    simp only [Function.update_self]
    exact ⟨hunshared.step (hlink.procs _) hsingly hapart hproc,
      Proc.exact_step (hlink.procs _) hunshared hsingly hexact hfits hserved hproc⟩
  · simp only [Function.update_of_ne hr, proc_of_ne hstep hr]
    exact hx r

/-- Careful steps keep the counters exact, so there is space for every piece that
the limit admits. -/
theorem exact_supplies (hc : Common F size cfg) (hfit : min size F.length ≤ kMemLimit) :
    net.Supplies cfg kMemLimit (Careful q) Exact where
  serves h hx := exact_serves hc hfit h hx
  keeps := by
    intro x x' l h hx _ hstep
    rcases Meter.step_cases hstep with ⟨hask, -⟩ | ⟨m, hask, hnext⟩
    · exact absurd hask (exact_serves hc hfit h hx)
    · obtain ⟨⟨-, hapart⟩, hbase⟩ := checkedStep_eq_some.mp hnext
      exact hx.served hc hfit h.reaches.reachable hask hapart hbase

/-- To be careful keeps no step back for good: who fetches the piece can go on. -/
theorem stuck_of_careful (hlink : Linked net cfg w) (hrun : Running w)
    (hend : ∀ l, l.2.works = true → checkedStep net.step (Careful q) w l = none) :
    ∀ l, l.2.works = true → checkedStep net.step (Orderly q) w l = none := by
  rintro ⟨r, a⟩ hworks
  rw [Option.eq_none_iff_forall_ne_some]
  intro w' hstep
  obtain ⟨horderly, hnext⟩ := checkedStep_eq_some.mp hstep
  have hshared : ¬Proc.Apart (w.proc r) a := by
    intro hapart
    have hgo : checkedStep net.step (Careful q) w (r, a) = some w' :=
      checkedStep_eq_some.mpr ⟨⟨horderly, hapart⟩, hnext⟩
    rw [hend _ hworks] at hgo
    cases hgo
  obtain ⟨t, i, hfetch⟩ : ∃ t i, ((w.proc r).sess t).pc.fetching = some i := by
    cases a with
    | session s b =>
        cases b with
        | thread c =>
            simp only [Proc.Apart, not_forall, not_not] at hshared
            obtain ⟨i, -, -, e, -, hfetch⟩ := hshared
            exact ⟨e.s, i, hfetch⟩
        | _ => exact absurd trivial hshared
    | _ => exact absurd trivial hshared
  obtain ⟨hgo, hloop, hseek⟩ := Proc.fetching_runnable hfetch
  have hpc : ((w.proc r).sess t).pc ≠ .absent := by
    intro hpc
    rw [hpc] at hfetch
    cases hfetch
  have hmay : Careful q w (r, .session t (.thread {})) := by
    refine ⟨⟨fun hpc => absurd hpc hloop, fun _ => trivial⟩, fun j hj => ?_⟩
    rw [hseek] at hj
    cases hj
  have hnone := hend (r, .session t (.thread {})) rfl
  rw [checkedStep, if_pos hmay] at hnone
  simp [step, admits_thread (hlink.attached r t hpc), Proc.step, Proc.enabled, hrun r,
    Proc.sessionEnabled, hgo] at hnone

end Net

end CntPeer
