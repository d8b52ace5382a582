import CntPeer.Swarm.Safety
import CntPeer.Swarm.Space

/-!
# Coming to rest

An honest swarm whose drains start settled comes to rest, in whatever order its
steps are taken, unless a cache runs out of space on the way.
-/

namespace CntPeer

open CntPeer.Foundation

namespace Proc

variable {p p' : Proc} {s : Sid} {cfg : Config}

theorem expectedPeerId_handle (sh : Shared) (x : Session) (e : Event) :
    (handle sh x e).after.expectedPeerId = x.expectedPeerId := by
  cases e
  all_goals
    simp only [handle]
    repeat' split
    all_goals rfl

theorem expectedPeerId_protocol {c : Choice} :
    (protocol p s c).after.expectedPeerId = (p.sess s).expectedPeerId := by
  cases hpc : (p.sess s).pc with
  | handle e =>
      simp only [protocol, hpc]
      exact expectedPeerId_handle p.sh (p.sess s) e
  | bcastNext i rest =>
      obtain ⟨m, pc, -, hstep⟩ := protocol_bcastNext (c := c) hpc
      rw [hstep]
      rfl
  | _ =>
      simp only [protocol, hpc, withDifference, withCollection, drainStep, awaitStep]
      repeat' split
      all_goals rfl

theorem expectedPeerId_step {a : Act} (hcreate : a.creates = false)
    (hstep : p.step a = some p') (s : Sid) :
    (p'.sess s).expectedPeerId = (p.sess s).expectedPeerId := by
  rcases sess_step hstep s with ⟨es, hsess⟩ | ⟨act, rfl, hen, hsess⟩
  · rw [hsess]
    rfl
  · rw [hsess, Session.enqAll_expectedPeerId]
    cases act with
    | thread c => exact expectedPeerId_protocol
    | create addr epid => cases hcreate
    | recvHandshake _ | recvBitfield _ | scan _ =>
        simp only [sessionEffect]
        split
        all_goals rfl
    | readFails _ | received _ => rfl

theorem absent_step {a : Act} {t : Sid} (hlife : Lifecycle p)
    (hcreate : a.creates = false) (hstep : p.step a = some p') :
    (p'.sess t).pc = .absent ↔ (p.sess t).pc = .absent := by
  refine ⟨fun h => by_contra fun hne => created_step hstep hne h, fun h => ?_⟩
  have hlive : p.live t = false := by
    rw [← Bool.not_eq_true, live_iff]
    rintro ⟨e, he, rfl⟩
    exact (hlife.stored e he).2 h
  rcases sess_step hstep t with ⟨es, heq⟩ | ⟨act, rfl, hen, heq⟩
  · rwa [heq, Session.enqAll_pc]
  · cases act with
    | create _ _ => cases hcreate
    | _ => simp [sessionEnabled, runnable, h, hlive] at hen

theorem AtMost.step {n : Nat} {a : Act} (h : AtMost n p) (hlife : Lifecycle p)
    (hcreate : a.creates = false) (hstep : p.step a = some p') : AtMost n p' := by
  obtain ⟨T, hT, hcard⟩ := h
  exact ⟨T, fun t ht => hT t (mt (absent_step hlife hcreate hstep).mpr ht), hcard⟩

theorem findAddr_live (hlife : Lifecycle p) (hpc : (p.sess s).pc ≠ .absent)
    (hend : (p.sess s).pc ≠ .ended) :
    p.sh.sc.findAddr (p.sess s).addr ≠ none := by
  rw [hlife.findAddr (hlife.live s hpc hend) rfl]
  exact nofun

theorem settled_keeping {a : Act} {cache : List CacheEntry} :
    DrainStartsSettled p (a.keeping cache) ↔ DrainStartsSettled p a := by
  cases a with
  | session s b => cases b <;> rfl
  | _ => rfl

def Panicked (halt : Option Halt) : Prop :=
  halt = none ∨ ∃ r, halt = some (.panic r)

theorem panicked_handle {sh : Shared} {x : Session} {e : Event}
    (hrun : sh.halt = none) : Panicked (handle sh x e).sh.halt := by
  cases e
  all_goals
    simp only [handle]
    repeat' split
    all_goals simp [Panicked, panicEffect, hrun]

theorem panicked_protocol {c : Choice} (hrun : p.sh.halt = none) :
    Panicked (protocol p s c).sh.halt := by
  cases hpc : (p.sess s).pc with
  | handle e =>
      simp only [protocol, hpc]
      exact panicked_handle hrun
  | bcastNext i rest =>
      obtain ⟨m, pc, -, hstep⟩ := protocol_bcastNext (c := c) hpc
      rw [hstep]
      exact .inl hrun
  | _ =>
      simp only [protocol, hpc, withDifference, withCollection, drainStep, awaitStep]
      repeat' split
      all_goals simp [Panicked, panicEffect, hrun]

/-- A step of a thread or of `cleanUp` stops the process only by a panic. -/
theorem panicked_step {a : Act} (hworks : a.works = true)
    (hstep : p.step a = some p') : Panicked p'.sh.halt := by
  have hrun := (step_cases hstep).1
  cases a with
  | session s act =>
      rw [(session_step hstep).2, commit_sh]
      cases act with
      | thread c => exact panicked_protocol hrun
      | recvHandshake _ | recvBitfield _ | scan _ =>
          simp only [sessionEffect]
          split
          all_goals simp [Panicked, panicEffect, hrun]
      | create _ _ | readFails _ | received _ => cases hworks
  | cleanUp =>
      obtain ⟨-, rfl⟩ := step_eq_some.mp hstep
      simp only [next, cleanedUp]
      split
      · simp [Panicked, haltWith]
      · exact .inl hrun
  | pnTick _ | optTick _ | exit => cases hworks

theorem cleanUp_found (hlife : Lifecycle p) {addr : Nat} {rest : List Nat}
    (hgc : p.sh.sc.gcBq = addr :: rest) : p.sh.sc.findAddr addr ≠ none := by
  obtain ⟨e, he, haddr, -⟩ := hlife.queued addr (by simp [hgc])
  rw [hlife.findAddr he haddr]
  exact nofun

end Proc

namespace Net

variable {Peer : Type*} {net : Net Peer} {w w' : Swarm Peer} {q r : Peer}
  {a : Act} {s : Sid} {cfg : Peer → Config} {F : List UInt8} {size : Nat}

theorem read_found (hint : Intact F (cfg q) (w.proc q)) {i : Nat} {c : Choice}
    (hrun : (w.proc q).sh.halt = none)
    (hpc : ((w.proc q).sess s).pc = .readPiece i) :
    (protocol (w.proc q) s c).sh.halt = none := by
  have hl := hint.locals s
  simp only [PieceLocal, hpc] at hl
  have hstored := hint.keeps.owned i hl
  have hread : (w.proc q).sh.repo.read i ≠ none := by
    rw [PieceRepository.read, hint.keeps.expectedSize, hint.keeps.pieceSize]
    rw [Stored] at hstored
    rw [hstored]
    exact Option.some_ne_none _
  obtain ⟨d, hd⟩ := Option.ne_none_iff_exists'.mp hread
  simp only [protocol, hpc, hd]
  exact hrun

variable [DecidableEq Peer]

/-- Each session expects the peer that it is connected to, or anyone. -/
def ExpectsMates (net : Net Peer) (cfg : Peer → Config) (w : Swarm Peer) : Prop :=
  ∀ s, (net.sess w s).expectedPeerId = epidNoPreference ∨
    (net.sess w s).expectedPeerId = (cfg (net.owner (net.mate s))).selfPeerId

theorem ExpectsMates.step (h : net.ExpectsMates cfg w) (hcreate : a.creates = false)
    (hstep : net.step w (q, a) = some w') : net.ExpectsMates cfg w' := by
  intro s
  by_cases hs : net.owner s = q
  · have hsame := Proc.expectedPeerId_step hcreate (proc_self hstep) s
    rw [← sess_of_owner hs, ← sess_of_owner hs] at hsame
    rw [hsame]
    exact h s
  · rw [sess_of_ne hstep hs]
    exact h s

theorem greeting (hlink : Linked net cfg w) {u : Sid} {id : Int}
    (hstep : net.step w (q, .session u (.recvHandshake id)) = some w') :
    id = (cfg (net.owner (net.mate u))).selfPeerId := by
  apply (hlink.opening (net.mate u)).handshake
  rw [hlink.fifo u, ← input_wire hstep u]
  simp [Act.inputAt, SessionAct.input]

/-- No thread of an honest swarm stops its process. -/
theorem thread_runs (hc : Common F size cfg)
    (h : Reaches net.step DrainsStartSettled (start cfg) w) {u : Sid} {c : Choice}
    (hstep : net.step w (q, .session u (.thread c)) = some w') {r : Panic}
    (hpanic : (protocol (w.proc q) u c).sh.halt = some (.panic r)) : False := by
  have hlink := linked_reachable h.reachable
  have hproc := proc_self hstep
  have hrun := (Proc.step_cases hproc).1
  have howner := owner_of_session hstep
  subst howner
  have hint := intact_reachable hc h.reachable (net.owner u)
  have hcause := Proc.panic_protocol hrun hpanic
  have hok := no_cause hc hlink (conserved_reachable h.reachable) hint hcause
  have hlife := Proc.lifecycle_reachable (hlink.procs (net.owner u))
  cases r with
  | prematureTearDown => exact no_tearDown_in_hand hc.nPieces h u hcause
  | shortRead =>
      obtain ⟨i, hpc⟩ := hcause
      rw [read_found hint hrun hpc] at hpanic
      cases hpanic
  | tryPreemptUnknown | relinquishUnknown =>
      obtain ⟨hnone, hpc, hend⟩ := hcause
      exact Proc.findAddr_live hlife hpc hend hnone
  | expectingBitfield | handshakePrefix | unexpectedPeer | cleanUpUnknown =>
      exact hcause
  | _ => cases hok

theorem running_step (hc : Common F size cfg)
    (h : Reaches net.step DrainsStartSettled (start cfg) w)
    (hexp : net.ExpectsMates cfg w) (hworks : a.works = true)
    (hstep : net.step w (q, a) = some w') : (w'.proc q).sh.halt = none := by
  have hlink := linked_reachable h.reachable
  have hproc := proc_self hstep
  rcases Proc.panicked_step hworks hproc with hnone | ⟨r, hpanic⟩
  · exact hnone
  exfalso
  have hrun := (Proc.step_cases hproc).1
  have hread := hlink.expected hstep
  cases a with
  | session u b =>
      have howner := owner_of_session hstep
      rw [(Proc.session_step hproc).2, Proc.commit_sh] at hpanic
      cases b with
      | thread c => exact thread_runs hc h hstep hpanic
      | recvHandshake id =>
          have hid := greeting hlink hstep
          have hmate := hexp u
          rw [sess_of_owner howner] at hmate
          simp only [Proc.sessionEffect] at hpanic
          split at hpanic
          · rename_i hwrong
            rcases hmate with hmate | hmate
            · exact hwrong.1 hmate
            · exact hwrong.2 (hid.trans hmate.symm)
          · exact absurd hpanic (not_halted hrun)
      | recvBitfield m =>
          cases m with
          | bitfieldMsg sv => exact absurd hpanic (not_halted hrun)
          | _ => cases hread
      | scan m =>
          obtain ⟨e, he⟩ := scanned_of_expected hread
          simp only [Proc.sessionEffect, he] at hpanic
          exact absurd hpanic (not_halted hrun)
      | create _ _ | readFails _ | received _ => cases hworks
  | cleanUp =>
      obtain ⟨-, addr, rest, hgc, hnone⟩ := Proc.background_panic hproc rfl hpanic
      exact Proc.cleanUp_found (Proc.lifecycle_reachable (hlink.procs q)) hgc hnone
  | pnTick _ | optTick _ | exit => cases hworks

/-! ### Rest -/

/-- The condition on drains keeps no step back for good: the threads that a
drain waits for can go on. -/
theorem resting_of_checked (hlink : Linked net cfg w) (hrun : Running w)
    (hrest : ∀ l, l.2.works = true →
      checkedStep net.step DrainsStartSettled w l = none) : net.Resting w := by
  rintro ⟨q, a⟩ hworks
  by_contra hstep
  have hnone := hrest (q, a) hworks
  have hok : ¬DrainsStartSettled w (q, a) := by
    intro hok
    rw [checkedStep, if_pos hok] at hnone
    exact hstep hnone
  cases a with
  | session s b =>
      cases b with
      | thread c =>
          simp only [DrainsStartSettled, Proc.DrainStartsSettled, not_forall,
            Bool.not_eq_false] at hok
          obtain ⟨-, -, e, -, hsettling⟩ := hok
          obtain ⟨t, ht, hloop⟩ := Proc.settling_runnable (hlink.procs q) hsettling
          have hpc : ((w.proc q).sess t).pc ≠ .absent := by
            intro hpc
            simp [runnable, hpc] at ht
          have hgo := hrest (q, .session t (.thread {})) rfl
          have hmay : DrainsStartSettled w (q, .session t (.thread {})) :=
            fun hpc => absurd hpc hloop
          rw [checkedStep, if_pos hmay] at hgo
          simp [step, admits_thread (hlink.attached q t hpc), Proc.step,
            Proc.enabled, hrun q, Proc.sessionEnabled, ht] at hgo
      | _ => exact hok trivial
  | _ => exact hok trivial

/-- An honest swarm whose drains start settled. -/
structure Healthy (net : Net Peer) (cfg : Peer → Config) (w : Swarm Peer) :
    Prop where
  reaches : Reaches net.step DrainsStartSettled (start cfg) w
  expects : net.ExpectsMates cfg w
  running : Running w

theorem Healthy.step (hc : Common F size cfg) (h : net.Healthy cfg w)
    (hworks : a.works = true) (hok : DrainsStartSettled w (q, a))
    (hstep : net.step w (q, a) = some w') : net.Healthy cfg w' := by
  have hcreate := (works_free (n := 0) (l := (q, a)) hworks).1
  refine ⟨.tail h.reaches hok hstep, h.expects.step hcreate hstep, fun r => ?_⟩
  by_cases hr : r = q
  · subst hr
    exact running_step hc h.reaches h.expects hworks hstep
  · rw [proc_of_ne hstep hr]
    exact h.running r

theorem Ample.step {kMemLimit : Nat} (h : Ample kMemLimit F w)
    (hlink : Linked net cfg w) (hcreate : a.creates = false)
    (hstep : net.step w (q, a) = some w') : Ample kMemLimit F w' := by
  intro r
  obtain ⟨k, hfew, hfit⟩ := h r
  refine ⟨k, ?_, hfit⟩
  by_cases hr : r = q
  · subst hr
    exact hfew.step (Proc.lifecycle_reachable (hlink.procs r)) hcreate (proc_self hstep)
  · rwa [proc_of_ne hstep hr]

section Counted

variable {ok : Swarm Peer → Peer × Act → Prop} [∀ w l, Decidable (ok w l)]
  {kMemLimit : Nat} {x x' : Swarm Peer × (Peer → Int)}
  {l : (Peer × Act) × List CacheEntry} {ls : List ((Peer × Act) × List CacheEntry)}

omit [DecidableEq Peer] in
theorem blind_settled : Blind (@DrainsStartSettled Peer) :=
  fun _ _ _ _ h => Proc.settled_keeping.mpr h

theorem Healthy.served {a' : Peer × Act} {n' : Peer → Int} (hc : Common F size cfg)
    (hok : ∀ w l, ok w l → DrainsStartSettled w l) (h : net.Healthy cfg x.1)
    (hworks : l.1.2.works = true)
    (hask : (cacheMeter Peer kMemLimit).ask x.1 x.2 l.1 l.2 = .served a' n')
    (hstep : checkedStep net.step ok x.1 a' = some w') : net.Healthy cfg w' := by
  have hworks' : a'.2.works = true :=
    (congrArg ActKind.works (kind_of_served hask)).trans hworks
  obtain ⟨hmeets, hnext⟩ := checkedStep_eq_some.mp hstep
  exact h.step hc hworks' (hok _ _ hmeets) hnext

/-- While `I` holds, the caches serve the steps that meet `ok`. -/
structure Supplies (net : Net Peer) (cfg : Peer → Config) (kMemLimit : Nat)
    (ok : Swarm Peer → Peer × Act → Prop) [∀ w l, Decidable (ok w l)]
    (I : Swarm Peer × (Peer → Int) → Prop) : Prop where
  serves : ∀ {x : Swarm Peer × (Peer → Int)} {l : (Peer × Act) × List CacheEntry},
    net.Healthy cfg x.1 → I x →
    (cacheMeter Peer kMemLimit).ask x.1 x.2 l.1 l.2 ≠ .broken
  keeps : ∀ {x x' : Swarm Peer × (Peer → Int)} {l : (Peer × Act) × List CacheEntry},
    net.Healthy cfg x.1 → I x → l.1.2.works = true →
    net.countedStep kMemLimit ok x l = some x' → I x'

variable {I : Swarm Peer × (Peer → Int) → Prop}

theorem ample_supplies (hc : Common F size cfg) :
    net.Supplies cfg kMemLimit ok fun x =>
      net.CountedReachable kMemLimit cfg x ∧ Ample kMemLimit F x.1 where
  serves h hx := hx.1.serves hc h.running hx.2 _ _
  keeps := by
    rintro x l x' h ⟨hx, hroom⟩ hworks hstep
    refine ⟨hx.step hstep, ?_⟩
    rcases Meter.step_cases hstep with ⟨hask, -⟩ | ⟨a, hask, hnext⟩
    · exact absurd hask (hx.serves hc h.running hroom _ _)
    · have hworks' : a.2.works = true :=
        (congrArg ActKind.works (kind_of_served hask)).trans hworks
      exact hroom.step (linked_reachable h.reaches.reachable)
        (works_free (n := 0) hworks').1 (checkedStep_eq_some.mp hnext).2

theorem Healthy.counted_step (hc : Common F size cfg)
    (hok : ∀ w l, ok w l → DrainsStartSettled w l)
    (hs : net.Supplies cfg kMemLimit ok I) (h : net.Healthy cfg x.1) (hx : I x)
    (hworks : l.1.2.works = true) (hstep : net.countedStep kMemLimit ok x l = some x') :
    net.Healthy cfg x'.1 := by
  rcases Meter.step_cases hstep with ⟨hask, -⟩ | ⟨a, hask, hnext⟩
  · exact absurd hask (hs.serves h hx)
  · exact h.served hc hok hworks hask hnext

theorem Healthy.counted_run (hc : Common F size cfg)
    (hok : ∀ w l, ok w l → DrainsStartSettled w l)
    (hs : net.Supplies cfg kMemLimit ok I) (h : net.Healthy cfg x.1) (hx : I x)
    (hworks : ∀ l ∈ ls, l.1.2.works = true)
    (hrun : run (net.countedStep kMemLimit ok) x ls = some x') : net.Healthy cfg x'.1 := by
  have hall : net.Healthy cfg x'.1 ∧ I x' := by
    refine run_invariant (I := fun x => net.Healthy cfg x.1 ∧ I x) ?_ ⟨h, hx⟩ hworks hrun
    rintro x l x' ⟨h, hx⟩ hworks hstep
    exact ⟨h.counted_step hc hok hs hx hworks hstep, hs.keeps h hx hworks hstep⟩
  exact hall.1

/-- Runs of threads end. -/
theorem counted_bounded [Fintype Peer] (hok : Blind ok) (hr : net.Reachable cfg x.1) :
    ∃ n, ∀ ls x', (∀ l ∈ ls, l.1.2.works = true) →
      run (net.countedStep kMemLimit ok) x ls = some x' → Running x'.1 →
      ls.length ≤ n := by
  obtain ⟨n, hn⟩ : ∃ n, ∀ as w', (∀ l ∈ as, l.2.works = true) →
      run (checkedStep net.step ok) x.1 as = some w' → as.length ≤ n :=
    works_bounded hr
  refine ⟨n, fun ls x' hworks hrun hup => ?_⟩
  obtain ⟨-, as, hkinds, hbase⟩ := run_of_counted hok hrun hup
  have hlen := congrArg List.length hkinds
  rw [List.length_map, List.length_map] at hlen
  rw [← hlen]
  have hall : ∀ l ∈ as, l.2.kind.works = true :=
    forall_of_map_eq (P := fun k => k.works = true) hkinds hworks
  exact hn as x'.1 hall hbase

/-- When the caches serve them, the threads take the swarm to where they cannot
go on. -/
theorem Healthy.counted_rests [Fintype Peer] (hc : Common F size cfg)
    (hblind : Blind ok) (hok : ∀ w l, ok w l → DrainsStartSettled w l)
    (hs : net.Supplies cfg kMemLimit ok I) (h : net.Healthy cfg x.1) (hx : I x) :
    ∃ ls x', (∀ l ∈ ls, l.1.2.works = true) ∧
      run (net.countedStep kMemLimit ok) x ls = some x' ∧ net.Healthy cfg x'.1 ∧
      ∀ l, l.1.2.works = true → net.countedStep kMemLimit ok x' l = none := by
  obtain ⟨n, hn⟩ : ∃ n, ∀ ls x', (∀ l ∈ ls, l.1.2.works = true) →
      run (net.countedStep kMemLimit ok) x ls = some x' → Running x'.1 →
      ls.length ≤ n :=
    counted_bounded hblind h.reaches.reachable
  have hkeeps : ∀ ls x', (∀ l ∈ ls, l.1.2.works = true) →
      run (net.countedStep kMemLimit ok) x ls = some x' → net.Healthy cfg x'.1 :=
    fun ls x' => h.counted_run hc hok hs hx
  obtain ⟨ls, x', hworks, hrun, hend⟩ :=
    exists_rest (P := fun l : (Peer × Act) × List CacheEntry => l.1.2.works = true)
      fun ls x' hworks hrun => hn ls x' hworks hrun (hkeeps ls x' hworks hrun).running
  exact ⟨ls, x', hworks, hrun, hkeeps ls x' hworks hrun, hend⟩

theorem resting_of_counted (hx : net.CountedReachable kMemLimit cfg x)
    (hup : Running x.1) (hend : ∀ l, l.1.2.works = true →
      net.countedStep kMemLimit DrainsStartSettled x l = none) : net.Resting x.1 :=
  resting_of_checked (linked_reachable (hx.reachable hup)) hup fun l hworks =>
    stuck_of_counted blind_settled fun order => hend (l, order) hworks

/-- The threads of a healthy swarm go on until a cache runs out of space. -/
theorem Healthy.until_broken (hc : Common F size cfg) (h : net.Healthy cfg x.1)
    (hworks : ∀ l ∈ ls, l.1.2.works = true)
    (hrun : run (net.countedStep kMemLimit DrainsStartSettled) x ls = some x') :
    net.Healthy cfg x'.1 ∨ ∃ as l bs y, ls = as ++ l :: bs ∧
      run (net.countedStep kMemLimit DrainsStartSettled) x as = some y ∧
      net.Healthy cfg y.1 ∧
      (cacheMeter Peer kMemLimit).ask y.1 y.2 l.1 l.2 = .broken := by
  refine Meter.run_or_broken (P := fun l : Peer × Act => l.2.works = true) ?_ h hworks
    hrun
  intro w n l order l' n' w' h hworks hask hstep
  exact h.served (x := (w, n)) (l := (l, order)) hc (fun _ _ => id) hworks hask hstep

/--
When no session is created and no timer ticks, an honest swarm whose drains start
settled goes on in whatever order its steps are taken: all processes run, up to
the first step at which `ensureSpace` fails, and where all run and none can go on,
the swarm is at rest.  If every cache has room for the file once for each session
of its process, no process stops, and the swarm comes to rest.
-/
theorem settles [Fintype Peer] (hc : Common F size cfg)
    (hx : net.CountedReachable kMemLimit cfg x) (h : net.Healthy cfg x.1) :
    (∀ ls x', (∀ l ∈ ls, l.1.2.works = true) →
      run (net.countedStep kMemLimit DrainsStartSettled) x ls = some x' →
      (Running x'.1 ∨ ∃ as l bs y, ls = as ++ l :: bs ∧
        run (net.countedStep kMemLimit DrainsStartSettled) x as = some y ∧
        Running y.1 ∧ (cacheMeter Peer kMemLimit).ask y.1 y.2 l.1 l.2 = .broken) ∧
      (Running x'.1 → (∀ l, l.1.2.works = true →
        net.countedStep kMemLimit DrainsStartSettled x' l = none) →
        net.Resting x'.1)) ∧
    (Ample kMemLimit F x.1 →
      (∀ ls x', (∀ l ∈ ls, l.1.2.works = true) →
        run (net.countedStep kMemLimit DrainsStartSettled) x ls = some x' →
        Running x'.1) ∧
      ∃ ls x', (∀ l ∈ ls, l.1.2.works = true) ∧
        run (net.countedStep kMemLimit DrainsStartSettled) x ls = some x' ∧
        Running x'.1 ∧ net.Resting x'.1) := by
  refine ⟨fun ls x' hworks hrun => ⟨?_, resting_of_counted (hx.run hrun)⟩,
    fun hroom => ⟨fun ls x' hworks hrun => ?_, ?_⟩⟩
  · exact (h.until_broken hc hworks hrun).imp Healthy.running
      fun ⟨as, l, bs, y, hsplit, hy, h', hbroken⟩ =>
        ⟨as, l, bs, y, hsplit, hy, h'.running, hbroken⟩
  · exact (h.counted_run hc (fun _ _ => id) (ample_supplies hc) ⟨hx, hroom⟩ hworks
      hrun).running
  · obtain ⟨ls, x', hworks, hrun, h', hend⟩ :=
      h.counted_rests hc blind_settled (fun _ _ => id) (ample_supplies hc) ⟨hx, hroom⟩
    exact ⟨ls, x', hworks, hrun, h'.running,
      resting_of_counted (hx.run hrun) h'.running hend⟩

end Counted

end Net

theorem pairMesh_common : Common [7] 1 pairMesh where
  shares q := by
    cases q
    all_goals exact ⟨by decide, by decide, by decide⟩
  pieceSize q := by cases q <;> rfl

theorem begunRun_runs : (run (checkedStep pairNet.step Net.DrainsStartSettled)
    (Net.start pairMesh) pairRequest).isSome = true := by
  decide

def begun : Swarm Bool :=
  (run (checkedStep pairNet.step Net.DrainsStartSettled) (Net.start pairMesh)
    pairRequest).get begunRun_runs

theorem begun_run : run (checkedStep pairNet.step Net.DrainsStartSettled)
    (Net.start pairMesh) pairRequest = some begun :=
  (Option.some_get begunRun_runs).symm

theorem begun_healthy : pairNet.Healthy pairMesh begun where
  reaches := reaches_of_checkedRun begun_run
  expects s := by
    have hpair : ∀ s ∈ [0, 1], (pairNet.sess begun s).expectedPeerId =
        epidNoPreference := by decide
    by_cases hs : s ∈ [0, 1]
    · exact .inl (hpair s hs)
    · exact .inl (Net.absent_outside begun_run (by decide) hs).2
  running := by
    unfold Net.Running
    decide

theorem begun_counted : pairNet.CountedReachable pieceCacheSize pairMesh
    (begun, fun _ => 0) := by
  obtain ⟨w, hw⟩ := Option.isSome_iff_exists.mp
    (show (run (checkedStep pairNet.step fun w l => (w.proc l.1).insertion l.2 = none)
      (Net.start pairMesh) pairRequest).isSome = true by decide)
  have hsame : some w = some begun :=
    (run_of_checkedRun hw).symm.trans (run_of_checkedRun begun_run)
  cases hsame
  refine Meter.reachable_free _ ((reaches_of_checkedRun hw).mono fun w l hl => ?_)
  exact Net.free_of_insertion hl

theorem begun_ample : Net.Ample pieceCacheSize [7] begun := by
  intro q
  refine ⟨2, ⟨{0, 1}, fun t ht => ?_, by decide⟩, by decide⟩
  have howner := (Net.linked_reachable begun_healthy.reaches.reachable).attached q t ht
  by_contra hout
  have hpc := (Net.absent_outside (s := t) begun_run (l := [0, 1]) (by decide)
    (by simpa using hout)).1
  rw [Net.sess_of_owner howner] at hpc
  exact ht hpc

theorem settles_begun :
    (begun.proc true).sh.own.sv = [.requested] ∧
      ∃ ls x', (∀ l ∈ ls, l.1.2.works = true) ∧
        run (pairNet.countedStep pieceCacheSize Net.DrainsStartSettled)
          (begun, fun _ => 0) ls = some x' ∧
        Net.Running x'.1 ∧ pairNet.Resting x'.1 :=
  ⟨by decide, ((Net.settles pairMesh_common begun_counted begun_healthy).2 begun_ample).2⟩

end CntPeer
