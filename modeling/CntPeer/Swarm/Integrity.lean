import CntPeer.Process.Integrity
import CntPeer.Swarm.Links

/-!
# Integrity across a swarm

Processes that start from the same configuration and the same file hand on
nothing but right pieces.
-/

namespace CntPeer

open CntPeer.Foundation

/-- Every process is configured for the file `F` cut into pieces of `size`. -/
structure Common {Peer : Type*} (F : List UInt8) (size : Nat)
    (cfg : Peer → Config) : Prop where
  shares : ∀ q, Shares F (cfg q)
  pieceSize : ∀ q, (cfg q).pieceSize = size

namespace Net

variable {Peer : Type*} [DecidableEq Peer] {net : Net Peer}
  {w w' : Swarm Peer} {q : Peer} {a : Act} {cfg : Peer → Config}
  {F : List UInt8} {size : Nat}

theorem fed_right (hc : Common F size cfg) (hlink : Linked net cfg w)
    (h : ∀ q, Intact F (cfg q) (w.proc q))
    (hstep : net.step w (q, a) = some w') :
    FedRight F (cfg q).pieceSize (w.proc q) a := by
  intro t j d hmem
  have hsent : .actual (.pieceMsg j d) ∈ (net.sess w (net.mate t)).sent := by
    rw [hlink.fifo]
    exact List.mem_append_right _ ((input_on_wire hstep t).subset hmem)
  have hright := ((h (net.owner (net.mate t))).delivers _).written j d hsent
  rw [hc.pieceSize] at hright ⊢
  exact hright

theorem fed_reachable (hc : Common F size cfg) (h : net.Reachable cfg w) :
    ∀ q, Reaches Proc.step (FedRight F (cfg q).pieceSize)
      (Proc.init (cfg q)) (w.proc q) := by
  refine h.invariant (I := fun w => ∀ q, Reaches Proc.step
    (FedRight F (cfg q).pieceSize) (Proc.init (cfg q)) (w.proc q))
    (fun _ => .start) ?_
  rintro w ⟨q, a⟩ w' hr ih - hstep r
  by_cases hrq : r = q
  · subst r
    exact .tail (ih q) (fed_right hc (linked_reachable hr)
      (fun q => Proc.intact_reaches (hc.shares q) (ih q)) hstep)
      (proc_self hstep)
  · rw [proc_of_ne hstep hrq]
    exact ih r

theorem intact_reachable (hc : Common F size cfg) (h : net.Reachable cfg w)
    (q : Peer) : Intact F (cfg q) (w.proc q) :=
  Proc.intact_reaches (hc.shares q) (fed_reachable hc h q)

theorem owned_bytes (hc : Common F size cfg) (h : net.Reachable cfg w)
    {i : Nat} (hi : (w.proc q).sh.own.sv[i]? = some .owned) {k : Nat}
    (hlow : i * size ≤ k) (hhigh : k < min ((i + 1) * size) F.length) :
    (w.proc q).sh.repo.file[k]? = F[k]? := by
  have hstored := (intact_reachable hc h q).keeps.owned i hi
  rw [hc.pieceSize] at hstored
  obtain ⟨-, -, hcells⟩ := readAt_eq_some_iff.mp hstored
  rw [Nat.succ_mul] at hhigh
  have hcell := hcells (k - i * size) (by omega)
  rw [Nat.add_sub_of_le hlow] at hcell
  have hsize : k - i * size < size := by omega
  rw [← hcell, chunk, List.getElem?_take, if_pos hsize, List.getElem?_drop,
    Nat.add_sub_of_le hlow]

theorem whole_file (hc : Common F size cfg) (h : net.Reachable cfg w)
    (hall : (w.proc q).sh.own.owningAll = true)
    (hset : (w.proc q).sh.own.setting = none) :
    (w.proc q).sh.repo.file = F := by
  have hshare := hc.shares q
  have hkeeps := (intact_reachable hc h q).keeps
  have hown := Proc.owning_reachable ((linked_reachable h).procs q)
  refine eq_of_chunks hshare.pieceSize hkeeps.short fun i hi => ?_
  refine hkeeps.owned i ?_
  have howned := hown.counted.owningAll_iff.mp hall i
  simp only [SyncPieceBitfield.settled, hset] at howned
  refine howned ?_
  rw [hown.length, Config.nPieces, hshare.fileSize]
  exact lt_ceilingDiv hshare.pieceSize hi

end Net

end CntPeer
