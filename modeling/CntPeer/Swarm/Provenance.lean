import CntPeer.Foundation.Copying
import CntPeer.Process.Payloads
import CntPeer.Swarm.Conservation

/-!
# A swarm copies pieces

Seen from far enough, a swarm does nothing but copy pieces over its connections.
The processes may be configured differently and begin with different files.
-/

namespace CntPeer

open CntPeer.Foundation

namespace Proc

variable {p p' : Proc} {s : Sid} {cfg : Config}

theorem taken_sessionEffect {a : SessionAct} (hen : p.sessionEnabled s a = true) :
    ∃ l, l.length ≤ 1 ∧ (∀ m ∈ l, m.opens = true ∨ m ∈ (p.sess s).pending) ∧
      (p.sessionEffect s a).after.handled = (p.sess s).handled ++ l := by
  have hact := actCases hen
  generalize p.sessionEffect s a = e at hact
  cases hact with
  | thread c =>
      cases queueStep_protocol (p := p) (s := s) (c := c) with
      | same events handled => exact ⟨[], by simp, nofun, by simpa using handled⟩
      | consumed e events handled =>
          refine ⟨e.msg?.toList, by cases e.msg? <;> simp, fun m hm => .inr ?_,
            handled⟩
          rw [Session.pending, events]
          exact List.mem_filterMap.mpr
            ⟨e, List.mem_cons_self, Option.mem_toList.mp hm⟩
  | setup stands goes quiet keeps taken =>
      rcases taken with heq | ⟨heq, hopens⟩
      · exact ⟨[], by simp, nofun, by simpa using heq⟩
      · refine ⟨a.input, ?_, fun m hm => .inl (hopens m hm), heq⟩
        cases a <;> simp [SessionAct.input]
  | idle after =>
      obtain ⟨n, heq⟩ := after
      exact ⟨[], by simp, nofun, by rw [heq]; simp⟩

theorem sourced_iff {l : List Msg}
    (hself : (p'.sess s).handled = (p.sess s).handled ++ l)
    (hother : ∀ t, t ≠ s → (p'.sess t).handled = (p.sess t).handled) (i : Nat)
    (d : Piece) :
    Sourced cfg p' i d ↔ Sourced cfg p i d ∨ .actual (.pieceMsg i d) ∈ l := by
  constructor
  · intro h
    cases h with
    | seeded hasFile inRange cut => exact .inl (.seeded hasFile inRange cut)
    | received t taken =>
        by_cases hts : t = s
        · subst t
          rw [hself, List.mem_append] at taken
          exact taken.imp (.received s) id
        · rw [hother t hts] at taken
          exact .inl (.received t taken)
  · rintro (h | h)
    · cases h with
      | seeded hasFile inRange cut => exact .seeded hasFile inRange cut
      | received t taken =>
          refine .received t ?_
          by_cases hts : t = s
          · subst t
            rw [hself]
            exact List.mem_append_left _ taken
          · rwa [hother t hts]
    · refine .received s ?_
      rw [hself]
      exact List.mem_append_right _ h

/-- The bytes that come to a process in a step come with a message that it had
read before. -/
theorem taken_step {a : Act} (cfg : Config) (hstep : p.step a = some p') :
    ∃ l : List Msg, l.length ≤ 1 ∧
      (∀ m ∈ l, m.opens = true ∨
        ∃ s act, a = .session s act ∧ m ∈ (p.sess s).pending) ∧
      ∀ i d, Sourced cfg p' i d ↔
        Sourced cfg p i d ∨ .actual (.pieceMsg i d) ∈ l := by
  obtain ⟨-, ⟨s, act, rfl, hen, rfl⟩ | hb⟩ := step_cases hstep
  · obtain ⟨l, hlen, hl, heq⟩ := taken_sessionEffect hen
    refine ⟨l, hlen, fun m hm => ?_, sourced_iff (s := s) ?_ fun t ht => ?_⟩
    · exact (hl m hm).imp id fun hm => ⟨s, act, rfl, hm⟩
    · rw [commit_self, Session.enqAll_handled, heq]
    · rw [commit_of_ne ht, Session.enqAll_handled]
  · have hsame : ∀ t, (p'.sess t).handled = (p.sess t).handled := by
      intro t
      obtain ⟨es, -, heq⟩ := hb.sess t
      rw [heq, Session.enqAll_handled]
    refine ⟨[], by simp, nofun, sourced_iff (s := 0) ?_ fun t _ => hsame t⟩
    rw [hsame, List.append_nil]

end Proc

namespace Net

variable {Peer : Type*} {net : Net Peer} {w w' : Swarm Peer} {q r : Peer}
  {a : Act} {cfg : Peer → Config}

def Connected (net : Net Peer) (r q : Peer) : Prop :=
  ∃ s, net.owner (net.mate s) = r ∧ net.owner s = q

def holdings (cfg : Peer → Config) (w : Swarm Peer) : Holdings Peer (Nat × Piece) :=
  fun q => { x | Sourced (cfg q) (w.proc q) x.1 x.2 }

theorem mem_holdings {x : Nat × Piece} :
    x ∈ holdings cfg w q ↔ Sourced (cfg q) (w.proc q) x.1 x.2 := .rfl

variable [DecidableEq Peer]

theorem holdings_of_ne (hstep : net.step w (q, a) = some w') (hr : r ≠ q) :
    holdings cfg w' r = holdings cfg w r := by
  rw [holdings, holdings, proc_of_ne hstep hr]

theorem holdings_step (hlink : Linked net cfg w)
    (hstep : net.step w (q, a) = some w') :
    holdings cfg w' = holdings cfg w ∨
      ∃ c, copyStep net.Connected (holdings cfg w) c = some (holdings cfg w') := by
  obtain ⟨l, hlen, hl, hsrc⟩ := Proc.taken_step (cfg q) (proc_self hstep)
  by_cases hpiece : ∃ (j : Nat) (b : Piece), .actual (.pieceMsg j b) ∈ l
  · -- the mate has written the piece, and so it had come there
    obtain ⟨j, b, hmem⟩ := hpiece
    obtain ⟨s, act, rfl, hpending⟩ :=
      (hl _ hmem).resolve_left (by simp [Msg.opens])
    have howner := owner_of_session hstep
    have hsent : .actual (.pieceMsg j b) ∈ (net.sess w (net.mate s)).sent := by
      refine hlink.written ?_
      rw [sess_of_owner howner]
      exact List.mem_append_right _ hpending
    obtain ⟨i, hij, hheld⟩ :=
      (Proc.traced_reachable (hlink.procs (net.owner (net.mate s)))).written _ _ _
        hsent
    cases Int.natCast_inj.mp hij
    refine .inr ⟨⟨net.owner (net.mate s), q, (j, b)⟩, ?_⟩
    refine copyStep_eq_some.mpr ⟨⟨⟨s, rfl, howner⟩, hheld⟩, ?_⟩
    obtain ⟨m, rfl⟩ := List.length_eq_one_iff.mp
      (Nat.le_antisymm hlen (List.length_pos_of_mem hmem))
    cases List.mem_singleton.mp hmem
    funext r
    by_cases hr : r = q
    · subst r
      ext ⟨i, d⟩
      rw [mem_add, mem_holdings, mem_holdings, hsrc]
      simp
    · rw [holdings_of_ne hstep hr]
      ext x
      rw [mem_add]
      simp [hr]
  · refine .inl (funext fun r => ?_)
    by_cases hr : r = q
    · subst r
      ext ⟨i, d⟩
      simp only [mem_holdings, hsrc]
      exact or_iff_left fun hmem => hpiece ⟨i, d, hmem⟩
    · exact holdings_of_ne hstep hr

/-- A swarm refines the copying of pieces over its connections. -/
theorem copies (h : net.Reachable cfg w) :
    Foundation.Reachable (copyStep net.Connected) (holdings cfg (start cfg))
      (holdings cfg w) := by
  refine h.invariant (I := fun w => Foundation.Reachable (copyStep net.Connected)
    (holdings cfg (start cfg)) (holdings cfg w)) .start ?_
  rintro w ⟨q, a⟩ w' hr ih - hstep
  rcases holdings_step (linked_reachable hr) hstep with heq | ⟨c, hcopy⟩
  · rwa [heq]
  · exact .tail ih trivial hcopy

/--
No piece comes from nowhere.  Every piece that a process owns has been copied
from a process with the file, over connected processes that all have got the
very same bytes; and a process that began without the file has these bytes on
its disk.
-/
theorem provenance (h : net.Reachable cfg w) {i : Nat}
    (hi : (w.proc q).sh.own.sv[i]? = some .owned) :
    ∃ o d, (cfg o).hasFile = true ∧ d = chunk (cfg o).file (cfg o).pieceSize i ∧
      Relation.ReflTransGen (Passed net.Connected (holdings cfg w) (i, d)) o q ∧
      ((cfg q).hasFile = false →
        readAt (w.proc q).sh.repo.file (i * (cfg q).pieceSize) d.length = some d) := by
  have hproc := (linked_reachable h).procs q
  have hown := Proc.owning_reachable hproc
  cases hfile : (cfg q).hasFile with
  | true => exact ⟨q, _, hfile, rfl, .refl, nofun⟩
  | false =>
      have hstocked := (Proc.traced_reachable hproc).stocked
      obtain ⟨d, hread, hd⟩ := hstocked.owned hfile i hi
      obtain ⟨o, ho, hway⟩ := traced_back (copies h) (x := (i, d)) hd
      refine ⟨o, d, ?_⟩
      cases ho with
      | seeded hasFile inRange cut =>
          refine ⟨hasFile, cut, hway, fun _ => ?_⟩
          rw [PieceRepository.read, hstocked.pieceSize] at hread
          rwa [(readAt_eq_some_iff.mp hread).2.1]
      | received s taken => cases taken

end Net

inductive Row
  | front | middle | back
deriving DecidableEq

def rowNet : Net Row where
  owner
    | 0 => .front
    | 1 | 2 => .middle
    | _ => .back
  mate := across
  mate_mate := across_across

def rowCfg : Row → Config
  | .front => Proc.seed
  | _ => { Proc.leech with numPn := 1 }

def inRow (s : Sid) (a : SessionAct) : Row × Act := (rowNet.owner s, .session s a)

def rowSteps (s : Sid) (a : SessionAct) (n : Nat) : List (Row × Act) :=
  inRow s a :: List.replicate n (inRow s (.thread {}))

def rowSetup (s t : Sid) (sv : List PieceStatus) : List (Row × Act) :=
  rowSteps s (.create s epidNoPreference) 3 ++
    rowSteps t (.create t epidNoPreference) 3 ++
    inRow s (.recvHandshake 1) ::
      rowSteps s (.recvBitfield (.bitfieldMsg [.absent])) 2 ++
    inRow t (.recvHandshake 1) :: rowSteps t (.recvBitfield (.bitfieldMsg sv)) 2

/-- The piece goes from the first process to the second and from there to the
third. -/
def rowRun : List (Row × Act) :=
  rowSetup 2 3 [.absent] ++ rowSteps 2 (.scan .notInterestedMsg) 2 ++
    rowSteps 3 (.scan .notInterestedMsg) 2 ++ rowSteps 2 (.scan .chokeMsg) 2 ++
    rowSteps 3 (.scan .chokeMsg) 2 ++
    rowSetup 0 1 [.owned] ++ rowSteps 0 (.scan .interestedMsg) 5 ++
    rowSteps 1 (.scan .notInterestedMsg) 2 ++ rowSteps 0 (.scan .chokeMsg) 2 ++
    rowSteps 1 (.scan .unchokeMsg) 5 ++ rowSteps 0 (.scan (.requestMsg 0)) 6 ++
    rowSteps 1 (.scan (.pieceMsg 0 [7])) 17 ++
    List.replicate 4 (inRow 2 (.thread {})) ++ rowSteps 3 (.scan (.haveMsg 0)) 3 ++
    rowSteps 2 (.scan .interestedMsg) 5 ++ rowSteps 3 (.scan .notInterestedMsg) 2 ++
    rowSteps 2 (.scan .chokeMsg) 2 ++ rowSteps 3 (.scan .unchokeMsg) 5 ++
    rowSteps 2 (.scan (.requestMsg 0)) 4 ++ rowSteps 3 (.scan (.pieceMsg 0 [7])) 8

theorem rowRun_runs :
    (run rowNet.step (Net.start rowCfg) rowRun).isSome = true := by
  decide +kernel

def handedOn : Swarm Row :=
  (run rowNet.step (Net.start rowCfg) rowRun).get rowRun_runs

theorem handedOn_reachable : rowNet.Reachable rowCfg handedOn :=
  reachable_get rowRun_runs

theorem provenance_handedOn :
    (handedOn.proc .back).sh.own.sv = [.owned] ∧ ∃ o d, (rowCfg o).hasFile = true ∧
      d = chunk (rowCfg o).file (rowCfg o).pieceSize 0 ∧
      Relation.ReflTransGen
        (Passed rowNet.Connected (Net.holdings rowCfg handedOn) (0, d)) o .back ∧
      ((rowCfg .back).hasFile = false →
        readAt (handedOn.proc .back).sh.repo.file (0 * (rowCfg .back).pieceSize) d.length =
          some d) := by
  have hsv : (handedOn.proc .back).sh.own.sv = [.owned] := by decide +kernel
  have hi : (handedOn.proc .back).sh.own.sv[0]? = some .owned := by rw [hsv]; rfl
  exact ⟨hsv, Net.provenance handedOn_reachable hi⟩

end CntPeer
