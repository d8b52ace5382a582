import CntPeer.Swarm.Bytes
import CntPeer.Swarm.Download

/-!
# A download over bytes

The caches are counted in a swarm whose links carry bytes too, and it reaches what
the swarm over messages reaches.  So a full mesh with a process that serves
everyone finishes in whatever pieces the bytes arrive.
-/

namespace CntPeer

open CntPeer.Foundation

namespace ByteAct

def kind : ByteAct → ActKind
  | .act a => a.kind
  | .read _ _ => ⟨true, false, false⟩

def act? : ByteAct → Option Act
  | .act a => some a
  | .read _ _ => none

end ByteAct

theorem Proc.insertion_of_input {p : Proc} {s : Sid} {x : SessionAct}
    (h : x.input ≠ []) : p.insertion (.session s x) = none := by
  cases x with
  | thread c => exact absurd rfl h
  | _ => rfl

def ByteSwarm.Running {Peer : Type*} (b : ByteSwarm Peer) : Prop :=
  ∀ q, (b.proc q).sh.halt = none

namespace Net

section Labels

variable {Peer : Type*} {md5 : List UInt8 → Digest} {b : ByteSwarm Peer}
  {w : Swarm Peer} {q : Peer}

/-- What a step of `q` that meets `Orderly` is over bytes. -/
def ByteOrderly (q : Peer) (b : ByteSwarm Peer) (l : Peer × ByteAct) : Prop :=
  match l.2 with
  | .act a => Proc.DrainStartsSettled (b.proc l.1) a ∧
      (l.1 = q → Proc.Roomy (b.proc q) a)
  | .read _ _ => True

instance [DecidableEq Peer] (q : Peer) (b : ByteSwarm Peer) :
    (l : Peer × ByteAct) → Decidable (ByteOrderly q b l)
  | (_, .act _) => inferInstanceAs (Decidable (_ ∧ (_ → _)))
  | (_, .read _ _) => .isTrue trivial

theorem Carries.running (h : Carries md5 b w) : b.Running ↔ Running w := by
  rw [ByteSwarm.Running, h.proc]
  rfl

theorem SameStep.kind {l : Peer × ByteAct} {m : Peer × Act} (h : SameStep l m) :
    l.2.kind = m.2.kind := by
  cases h with
  | act => rfl
  | @read q s n a reads =>
      cases a with
      | recvHandshake _ | recvBitfield _ | scan _ => rfl
      | _ => exact absurd rfl reads

theorem kinds_of_same {bs : List (Peer × ByteAct)} {as : List (Peer × Act)}
    (h : List.Forall₂ SameStep bs as) :
    as.map (fun l => l.2.kind) = bs.map fun l => l.2.kind := by
  induction h with
  | nil => rfl
  | cons hsame _ ih => rw [List.map_cons, List.map_cons, hsame.kind, ih]

theorem SameStep.orderly {l : Peer × ByteAct} {m : Peer × Act} (h : SameStep l m)
    (hR : Carries md5 b w) : ByteOrderly q b l ↔ Orderly q w m := by
  cases h with
  | act =>
      unfold ByteOrderly Orderly DrainsStartSettled RoomyAt
      rw [hR.proc]
  | @read q s n a reads =>
      refine iff_of_true trivial ?_
      cases a with
      | recvHandshake _ | recvBitfield _ | scan _ => exact ⟨trivial, fun _ => trivial⟩
      | _ => exact absurd rfl reads

end Labels

/-- The processes of a swarm over bytes; to read inserts nothing. -/
def byteParts (Peer : Type*) [DecidableEq Peer] :
    Parts (ByteSwarm Peer) Peer Proc ByteAct Act where
  part b := b.proc
  put b q p := { b with proc := Function.update b.proc q p }
  act? := ByteAct.act?
  label := .act

def byteCacheMeter (Peer : Type*) [DecidableEq Peer] (kMemLimit : Nat) :
    Meter (ByteSwarm Peer) (Peer → Int) (Peer × ByteAct) (List CacheEntry) :=
  (Proc.cacheMeter kMemLimit).pool (byteParts Peer)

variable {Peer : Type*} [DecidableEq Peer] (net : Net Peer) (md5 : List UInt8 → Digest)

def byteCountedStep (kMemLimit : Nat) (ok : ByteSwarm Peer → Peer × ByteAct → Prop)
    [∀ b l, Decidable (ok b l)] :=
  (byteCacheMeter Peer kMemLimit).step (checkedStep (net.byteStep md5) ok)

abbrev ByteCountedReachable (kMemLimit : Nat) (cfg : Peer → Config)
    (x : ByteSwarm Peer × (Peer → Int)) : Prop :=
  Foundation.Reachable ((byteCacheMeter Peer kMemLimit).step (net.byteStep md5))
    (byteStart cfg, fun _ => 0) x

variable {net md5} {w w' : Swarm Peer} {b b' : ByteSwarm Peer} {q r : Peer}
  {cfg : Peer → Config} {F : List UInt8} {size kMemLimit : Nat}
  {x x' : ByteSwarm Peer × (Peer → Int)}

theorem advance_proc {a : Act} {left : Sid → List UInt8}
    (h : net.advance md5 b q a left = some b') :
    (b.proc q).step a = some (b'.proc q) ∧ ∀ r, r ≠ q → b'.proc r = b.proc r := by
  obtain ⟨p, hp, rfl⟩ := advance_eq_some.mp h
  refine ⟨?_, fun r hr => Function.update_of_ne hr _ _⟩
  rw [hp]
  simp

/-- A step over bytes is one of its process, which inserts only by a step that
reads nothing. -/
theorem byteStep_proc {l : ByteAct} (h : net.byteStep md5 b (q, l) = some b') :
    (∃ a, (b.proc q).step a = some (b'.proc q) ∧
      (l.act? = some a ∨ l.act? = none ∧ (b.proc q).insertion a = none)) ∧
      ∀ r, r ≠ q → b'.proc r = b.proc r := by
  cases l with
  | act a =>
      simp only [byteStep] at h
      split at h
      · obtain ⟨hstep, hothers⟩ := advance_proc h
        exact ⟨⟨a, hstep, .inl rfl⟩, hothers⟩
      · cases h
  | read s n =>
      simp only [byteStep] at h
      split at h
      · split at h
        · cases h
        · obtain ⟨hstep, hothers⟩ := advance_proc h
          exact ⟨⟨_, hstep, .inr ⟨rfl, Proc.insertion_of_input
            (input_of_reader ‹_›)⟩⟩, hothers⟩
        · obtain ⟨hstep, hothers⟩ := advance_proc h
          exact ⟨⟨_, hstep, .inr ⟨rfl, rfl⟩⟩, hothers⟩
      · cases h

theorem byteParts_step : (byteParts Peer).Step (Proc.cacheMeter kMemLimit)
    (net.byteStep md5) Proc.step where
  part_put _ _ _ := rfl
  act?_label _ := rfl
  acts := by
    intro b q l a b' (hact : l.act? = some a) hstep
    obtain ⟨⟨a', hproc, hact' | ⟨hnone, -⟩⟩, -⟩ := byteStep_proc hstep
    · rw [hact] at hact'
      cases hact'
      exact hproc
    · rw [hact] at hnone
      cases hnone
  silent := by
    intro b q l b' (hact : l.act? = none) hstep
    obtain ⟨⟨a, hproc, hact' | ⟨-, hins⟩⟩, -⟩ := byteStep_proc hstep
    · rw [hact] at hact'
      cases hact'
    · exact ⟨a, Proc.free_of_insertion hins, hproc⟩
  others hstep hr := (byteStep_proc hstep).2 _ hr

theorem ByteCountedReachable.proc (h : net.ByteCountedReachable md5 kMemLimit cfg x)
    (q : Peer) : Proc.CountedReachable kMemLimit (cfg q) (x.1.proc q, x.2 q) :=
  byteParts_step.reachable_part h q

theorem ByteCountedReachable.run {ok : ByteSwarm Peer → Peer × ByteAct → Prop}
    [∀ b l, Decidable (ok b l)] {ls : List ((Peer × ByteAct) × List CacheEntry)}
    (h : net.ByteCountedReachable md5 kMemLimit cfg x)
    (hrun : Foundation.run (net.byteCountedStep md5 kMemLimit ok) x ls = some x') :
    net.ByteCountedReachable md5 kMemLimit cfg x' :=
  run_invariant (P := fun _ => True) (fun _ _ _ h _ hstep => .tail h trivial
    (Meter.step_mono (fun _ _ _ hchecked => (checkedStep_eq_some.mp hchecked).2) hstep)) h
    (fun _ _ => trivial) hrun

theorem byteStep_act_eq_none {a : Act} :
    net.byteStep md5 b (q, .act a) = none ↔
      ¬(net.admitsSilent q a = true ∧ (b.proc q).enabled a = true) := by
  rw [← not_iff_not, not_not, ← ne_eq, Option.ne_none_iff_exists']
  simp only [byteStep]
  constructor
  · rintro ⟨b', hstep⟩
    split at hstep
    · obtain ⟨p, hp, -⟩ := advance_eq_some.mp hstep
      exact ⟨‹_›, (Proc.step_eq_some.mp hp).1⟩
    · cases hstep
  · rintro ⟨hadm, hen⟩
    rw [if_pos hadm]
    exact ⟨_, advance_eq_some.mpr ⟨_, Proc.step_eq_some.mpr ⟨hen, rfl⟩, rfl⟩⟩

theorem admitsSilent_keeping {a : Act} (cache : List CacheEntry) :
    net.admitsSilent q (a.keeping cache) = net.admitsSilent q a := by
  cases a with
  | session s b => cases b <;> rfl
  | _ => rfl

theorem byteParts_kind {p : Proc} {n n' : Int} {a a' : Act} {m : ByteAct}
    {order : List CacheEntry}
    (hask : (Proc.cacheMeter kMemLimit).ask p n a order = .served a' n')
    (hact : (byteParts Peer).act? m = some a) :
    ((byteParts Peer).label a').kind = m.kind := by
  cases m with
  | act _ =>
      cases hact
      exact Proc.kind_of_served hask
  | read _ _ => cases hact

theorem byte_kind_of_served {n n' : Peer → Int} {l l' : Peer × ByteAct}
    {order : List CacheEntry}
    (hask : (byteCacheMeter Peer kMemLimit).ask b n l order = .served l' n') :
    l'.2.kind = l.2.kind :=
  Meter.pool_same byteParts_kind hask

theorem byteMeter_lawful : (byteCacheMeter Peer kMemLimit).Lawful
    (checkedStep (net.byteStep md5) (ByteOrderly q)) (fun l => l.2.kind) := by
  refine Meter.pool_lawful Proc.ask_manner byteParts_kind ?_
  rintro b r n a order a' n' (a | _) hask hact hnone
  · cases hact
    rcases Proc.ask_served hask with ⟨-, rfl, -⟩ | ⟨i, d, y, -, -, -, rfl, -⟩
    · exact hnone
    · refine checkedStep_none (fun horderly => ?_) (fun hnone => ?_) hnone
      · exact ⟨Proc.settled_keeping.mpr horderly.1,
          fun hr => Proc.roomy_keeping.mpr (horderly.2 hr)⟩
      · change net.byteStep md5 b (r, .act (a.keeping y.cache)) = none at hnone
        rw [byteStep_act_eq_none, admitsSilent_keeping, Proc.enabled_keeping] at hnone
        exact byteStep_act_eq_none.mpr hnone
  · cases hact

theorem byte_broken_stops {n : Peer → Int} {l : Peer × ByteAct} {order : List CacheEntry}
    (hask : (byteCacheMeter Peer kMemLimit).ask b n l order = .broken) :
    ¬((byteCacheMeter Peer kMemLimit).broken b l).Running :=
  Meter.pool_not_up (D := byteParts Peer) (U := fun p => p.sh.halt = none)
    (fun _ _ _ => rfl) (fun _ _ _ _ _ => Proc.broken_halts) hask

theorem byte_running_back {l : Peer × ByteAct} (hstep : net.byteStep md5 b l = some b')
    (hrun : b'.Running) : b.Running := by
  obtain ⟨⟨a, hproc, -⟩, hothers⟩ := byteStep_proc hstep
  intro r
  by_cases hr : r = l.1
  · subst hr
    exact Proc.step_running hproc
  · rw [← hothers r hr]
    exact hrun r

/-! ### Counted runs on both levels -/

/-- What the caches serve over messages, they serve over bytes. -/
theorem Carries.served (hR : Carries md5 b w) {n n' : Peer → Int} {l l' : Peer × Act}
    {order : List CacheEntry} {m' : Peer × ByteAct}
    (hask : (cacheMeter Peer kMemLimit).ask w n l order = .served l' n')
    (hsame : SameStep m' l') :
    ∃ m order, (byteCacheMeter Peer kMemLimit).ask b n m order = .served m' n' := by
  obtain ⟨q, a⟩ := l
  rcases Meter.pool_served hask with ⟨⟨⟩, -, -⟩ | ⟨_, a', left, ⟨⟩, hserved, rfl, rfl⟩
  change (Proc.cacheMeter kMemLimit).ask (w.proc q) (n q) a order = .served a' left
    at hserved
  change SameStep m' (q, a') at hsame
  cases hsame with
  | act =>
      rw [← hR.proc] at hserved
      refine ⟨(q, .act a), order, ?_⟩
      simp [byteCacheMeter, Meter.pool, byteParts, ByteAct.act?, hserved]
  | @read _ s k x reads =>
      rcases Proc.ask_served hserved with ⟨-, rfl, rfl⟩ | ⟨i, d, y, hins, -, -, heq, -⟩
      · refine ⟨(q, .read s k), order, ?_⟩
        simp [byteCacheMeter, Meter.pool, byteParts, ByteAct.act?]
      · obtain ⟨u, c, rfl, -⟩ := Proc.insertion_eq_some hins
        cases heq
        exact absurd rfl reads

theorem counted_down {y : Swarm Peer × (Peer → Int)} (hc : Deployed F size cfg)
    (h : net.CountedReachable kMemLimit cfg y) (hup : Running y.1) :
    ∃ b, net.ByteCountedReachable md5 kMemLimit cfg (b, y.2) ∧ Carries md5 b y.1 := by
  obtain ⟨-, b, hb, hR⟩ := Meter.reachable_down (U := Running)
    (fun _ _ _ _ => broken_stops) (fun _ _ _ => running_back) (bytes_bisimulate hc)
    (fun hR hask hsame => hR.served hask hsame) .start carries_start h hup
  exact ⟨b, hb, hR⟩

section Provided

variable [Fintype Peer]

theorem Provided.byte_step (hc : Deployed F size cfg)
    (hx : net.ByteCountedReachable md5 kMemLimit cfg x) (h : net.Provided cfg q w)
    (hR : Carries md5 x.1 w) (hfit : (Fintype.card Peer - 1) * F.length ≤ kMemLimit)
    {l : (Peer × ByteAct) × List CacheEntry} (hworks : l.1.2.kind.works = true)
    (hstep : net.byteCountedStep md5 kMemLimit (ByteOrderly q) x l = some x') :
    x'.1.Running := by
  have hr := h.orderly.reachable
  rcases Meter.step_cases hstep with ⟨hask, -⟩ | ⟨m, hask, hnext⟩
  · obtain ⟨a, hact, hbroken⟩ := Meter.pool_broken hask
    have hkeeps := (intact_reachable hc.toCommon hr l.1.1).keeps
    have hfew := h.few l.1.1
    have hup := h.running l.1.1
    rw [← hR.proc] at hkeeps hfew hup
    rw [← hkeeps.size] at hfit
    exact absurd hbroken (Proc.ensureSpace_succeeds (hx.proc l.1.1) hup hfew hfit a l.2)
  · have hkind := byte_kind_of_served hask
    obtain ⟨horderly, hbyte⟩ := checkedStep_eq_some.mp hnext
    obtain ⟨⟨r, a⟩, w', hsame, hmsg, hR'⟩ := (bytes_bisimulate hc).up hr hR hbyte
    have hworks' : a.works = true := by
      have hsameKind := hsame.kind.symm.trans hkind
      exact (congrArg ActKind.works hsameKind).trans hworks
    exact hR'.running.mpr (h.healthy.step hc.toCommon hworks'
      ((hsame.orderly hR).mp horderly).1 hmsg).running

/--
Over bytes a full mesh of honest processes, one of which started with the file
and has a preferred slot for each of the others, finishes the download too,
however the bytes arrive.  In every run that creates no session and leaves
everybody running there is a bound on the steps of the threads, up to a constant
for each tick of a timer; no such step stops a process, if every cache has room
for the file once for each peer; and whenever the threads cannot go on, also with
all bytes there, every process has the file and no session is unfinished.
-/
theorem byte_download_completes (hc : Deployed F size cfg)
    (hx : net.ByteCountedReachable md5 kMemLimit cfg x) (h : net.Provided cfg q w)
    (hR : Carries md5 x.1 w) :
    ∃ n c, ∀ ls x', (∀ l ∈ ls, l.1.2.kind.creates = false) →
      run (net.byteCountedStep md5 kMemLimit (ByteOrderly q)) x ls = some x' →
      x'.1.Running →
      (ls.countP fun l => l.1.2.kind.works) ≤
        n + c * (ls.countP fun l => l.1.2.kind.ticks) ∧
      ((Fintype.card Peer - 1) * F.length ≤ kMemLimit → ∀ l y,
        l.1.2.kind.works = true →
        net.byteCountedStep md5 kMemLimit (ByteOrderly q) x' l = some y →
        y.1.Running) ∧
      ((∃ l, l.1.2.kind.works = true ∧
          net.byteCountedStep md5 kMemLimit (ByteOrderly q) x' l ≠ none) ∨
        ∀ r, (x'.1.proc r).sh.repo.file = F ∧
          (x'.1.proc r).sh.sc.nUnfinishedSession = 0) := by
  have hsim : Bisimulates (checkedStep (net.byteStep md5) (ByteOrderly q))
      (checkedStep net.step (Orderly q)) (net.Reachable cfg) (Carries md5) SameStep :=
    (bytes_bisimulate hc).checked fun hR hsame => hsame.orderly hR
  have hr := h.orderly.reachable
  obtain ⟨n, c, hbudget⟩ := h.budget
  refine ⟨n, c, fun ls x' hcreate hrun hup => ?_⟩
  obtain ⟨-, bs, hkinds, hbytes⟩ := byteMeter_lawful.run_base (U := ByteSwarm.Running)
    (fun _ _ _ _ => byte_broken_stops)
    (fun _ _ _ hstep => byte_running_back (checkedStep_eq_some.mp hstep).2) hrun hup
  obtain ⟨as, w', hall, hbase, hr', hR'⟩ := hsim.run_up hr hR hbytes
  have hsame := (kinds_of_same hall).trans hkinds
  have hnew : ∀ l ∈ as, l.2.kind.creates = false :=
    forall_of_map_eq (P := fun k => k.creates = false) hsame hcreate
  have h' : net.Provided cfg q w' :=
    h.run (fun _ _ => id) hnew hbase (hR'.running.mp hup)
  refine ⟨?_, fun hfit l y => h'.byte_step hc (hx.run hrun) hR' hfit,
    (byteMeter_lawful.goes_or_stuck fun l => l.2.kind.works = true).imp_right
      fun hend r => ?_⟩
  · have hworks := countP_of_map_eq hsame ActKind.works
    have hticks := countP_of_map_eq hsame ActKind.ticks
    have hle := hbudget as w' hnew hbase
    exact hworks ▸ hticks ▸ hle
  · rw [hR'.proc]
    refine (h'.finished hc.toCommon (fun l hworks => ?_) r).2
    exact hsim.stuck (p := fun l => l.2.kind.works = true)
      (q := fun l => l.2.kind.works = true)
      (fun hsame hl => (congrArg ActKind.works hsame.kind).trans hl) hr' hR' hend hworks

end Provided

end Net

theorem pairMesh_deployed : Deployed [7] 1 pairMesh where
  toCommon := pairMesh_common
  fileSize := by decide
  selfPeerId q := by
    cases q
    all_goals exact inWord_natCast (n := 1) (by decide)

def begunBytes : ByteSwarm Bool where
  proc := begun.proc
  stream s := (begun.wire s).flatMap (Msg.writeTo pairMd5)

theorem begunBytes_counted :
    pairNet.ByteCountedReachable pairMd5 pieceCacheSize pairMesh
      (begunBytes, fun _ => 0) := by
  obtain ⟨b, hb, hR⟩ : ∃ b, pairNet.ByteCountedReachable pairMd5 pieceCacheSize pairMesh
      (b, fun _ => 0) ∧ Net.Carries pairMd5 b begun :=
    Net.counted_down pairMesh_deployed begun_counted begun_healthy.running
  have hsame : b = begunBytes := hR.unique ⟨rfl, fun _ => rfl⟩
  rwa [hsame] at hb

theorem byte_download_completes_begun :
    (begunBytes.proc true).sh.own.sv = [.requested] ∧
      ∃ n c, ∀ ls x', (∀ l ∈ ls, l.1.2.kind.creates = false) →
        run (pairNet.byteCountedStep pairMd5 pieceCacheSize (Net.ByteOrderly false))
          (begunBytes, fun _ => 0) ls = some x' →
        x'.1.Running →
        (ls.countP fun l => l.1.2.kind.works) ≤
          n + c * (ls.countP fun l => l.1.2.kind.ticks) ∧
        ((Fintype.card Bool - 1) * [(7 : UInt8)].length ≤ pieceCacheSize → ∀ l y,
          l.1.2.kind.works = true →
          pairNet.byteCountedStep pairMd5 pieceCacheSize (Net.ByteOrderly false) x' l =
            some y → y.1.Running) ∧
        ((∃ l, l.1.2.kind.works = true ∧
            pairNet.byteCountedStep pairMd5 pieceCacheSize (Net.ByteOrderly false) x' l ≠
              none) ∨
          ∀ r, (x'.1.proc r).sh.repo.file = [7] ∧
            (x'.1.proc r).sh.sc.nUnfinishedSession = 0) :=
  ⟨by decide, Net.byte_download_completes pairMesh_deployed begunBytes_counted
    begun_provided ⟨rfl, fun _ => rfl⟩⟩

end CntPeer
