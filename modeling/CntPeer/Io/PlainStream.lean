import Mathlib.Algebra.BigOperators.Group.List.Basic
import Mathlib.Algebra.GroupWithZero.Nat
import CntPeer.Io.BufferedReader

/-!
# The buffered reader as a plain stream

Reads of any length and in any order return the bytes of the stream in order,
however the stream is cut.  The calls of the underlying reader are listed
beside them: where in the destination each one may store how many bytes.
-/

namespace CntPeer

open CntPeer.Foundation

structure Ask where
  offset : Nat
  length : Nat
  size : Nat
  deriving DecidableEq

structure Ask.Proper (a : Ask) : Prop where
  pos : 0 < a.length
  fits : a.offset + a.length ≤ a.size

/-- What the calls leave of the chunks; `none` when one waits for ever. -/
def replay : List Ask → List (List UInt8) → Option (List (List UInt8))
  | [], incoming => some incoming
  | a :: asks, incoming =>
      (recv a.length incoming).bind fun p => replay asks p.2

namespace BufferedReader

def discard (n : Nat) : BufferReceiver Unit := fun b =>
  (b.ensure n).map fun b => .ok ((), advance n b)

inductive Op where
  | read (length : Nat)
  | readByte
  | read32
  | discard (n : Nat) (h : n ≤ bufferedReaderBufSz)

namespace Op

def size : Op → Nat
  | .read length => length
  | .readByte => 1
  | .read32 => 4
  | .discard n _ => n

def exec : Op → BufferReceiver (List UInt8)
  | .read length => BufferedReader.read length
  | .readByte => do return [← BufferedReader.readByte]
  | .read32 => BufferedReader.read32
  | .discard n _ => do
      BufferedReader.discard n
      return []

def result : Op → List UInt8 → List UInt8
  | .discard _ _, _ => []
  | _, l => l

end Op

def execAll : List Op → BufferReceiver (List (List UInt8))
  | [] => pure []
  | op :: ops => do
      let l ← op.exec
      let ls ← execAll ops
      return l :: ls

def total (ops : List Op) : Nat := (ops.map Op.size).sum

def results : List Op → List UInt8 → List (List UInt8)
  | [], _ => []
  | op :: ops, l => op.result (l.take op.size) :: results ops (l.drop op.size)

def flushAsk (b : BufferedReader) : Ask :=
  let b := if b.head ≠ 0 then b.moveToFront else b
  ⟨b.tail, bufferedReaderBufSz - b.tail, bufferedReaderBufSz⟩

def ensureAsks (n : Nat) : Nat → BufferedReader → List Ask
  | 0, _ => []
  | fuel + 1, b =>
      if n ≤ b.tail - b.head then []
      else b.flushAsk :: (b.flush.toList.flatMap (ensureAsks n fuel))

/-- The calls of a long read into a destination of `size` bytes, of which `n`
are missing. -/
def gatherAsks (size : Nat) : Nat → Nat → List (List UInt8) → List Ask
  | 0, _, _ => []
  | fuel + 1, n, incoming =>
      if n = 0 then []
      else ⟨size - n, n, size⟩ :: (recv n incoming).toList.flatMap fun p =>
        gatherAsks size fuel (n - p.1.1.length) p.2

def asks (b : BufferedReader) : Op → List Ask
  | .read length =>
      if bufferedReaderBufSz < length then
        gatherAsks length (pending b.incoming + 1)
          (length - (b.tail - b.head)) b.incoming
      else ensureAsks length (pending b.incoming + 1) b
  | op => ensureAsks op.size (pending b.incoming + 1) b

variable {b b' : BufferedReader} {n size fuel : Nat} {op : Op} {ops : List Op}
  {incoming left : List (List UInt8)}

theorem discard_eq_read (n : Nat) :
    (discard n : BufferReceiver Unit) = do
      let _ ← readBuffered n
      return () := by
  funext b
  change (b.ensure n).map _ = ((b.ensure n).map _ :
    Option (Except Halt (List UInt8 × BufferedReader))).bind _
  cases b.ensure n with
  | none => rfl
  | some b' => rfl

def Op.plain (op : Op) : Reader UInt8 Halt (List UInt8) :=
  Reader.take op.size >>= fun l => pure (op.result l)

theorem plain_readByte :
    Op.readByte.plain = Reader.next >>= fun c => pure [c] := by
  funext l
  cases l with
  | nil => rfl
  | cons c l => rfl

theorem exec_implements (op : Op) : Implements cells op.exec op.plain := by
  cases op with
  | read length =>
      have h := (read_implements length).bind fun l => .pure l
      rwa [bind_pure] at h
  | readByte =>
      rw [plain_readByte]
      exact readByte_implements.bind fun c => .pure [c]
  | read32 =>
      have h := (readBuffered_implements (n := 4) (by decide)).bind
        fun l => .pure l
      rwa [bind_pure] at h
  | discard n hn =>
      rw [Op.exec, discard_eq_read, bind_assoc]
      exact (readBuffered_implements hn).bind fun _ => .pure []

def plainAll : List Op → Reader UInt8 Halt (List (List UInt8))
  | [] => pure []
  | op :: ops => op.plain >>= fun l => plainAll ops >>= fun ls => pure (l :: ls)

theorem execAll_implements (ops : List Op) :
    Implements cells (execAll ops) (plainAll ops) := by
  induction ops with
  | nil => exact .pure []
  | cons op ops ih =>
      exact (exec_implements op).bind fun l => ih.bind fun ls => .pure (l :: ls)

theorem plainAll_eq_done {l : List UInt8} (h : total ops ≤ l.length) :
    plainAll ops l = .done (results ops l) (l.drop (total ops)) := by
  induction ops generalizing l with
  | nil => rfl
  | cons op ops ih =>
      rw [total, List.map_cons, List.sum_cons] at h ⊢
      have hrest : total ops ≤ (l.drop op.size).length := by
        rw [List.length_drop, total]
        omega
      have hop : op.plain l = .done (op.result (l.take op.size)) (l.drop op.size) := by
        change Reader.andThen _ _ _ = _
        rw [Reader.andThen, Reader.take, if_pos (by omega)]
        rfl
      change Reader.andThen _ _ _ = _
      rw [Reader.andThen, hop]
      change Reader.andThen _ _ _ = _
      rw [Reader.andThen, ih hrest, List.drop_drop]
      rfl

theorem plainAll_eq_more {l : List UInt8} (h : l.length < total ops) :
    plainAll ops l = .more := by
  induction ops generalizing l with
  | nil => cases h
  | cons op ops ih =>
      rw [total, List.map_cons, List.sum_cons] at h
      refine Reader.bind_eq_more.mpr ?_
      by_cases hsize : l.length < op.size
      · exact .inl (Reader.bind_eq_more.mpr (.inl (Reader.take_eq_more.mpr hsize)))
      · refine .inr ⟨op.result (l.take op.size), l.drop op.size, ?_, ?_⟩
        · exact Reader.bind_eq_done.mpr ⟨l.take op.size, l.drop op.size,
            Reader.take_eq_done.mpr ⟨(List.take_append_drop _ _).symm,
              List.length_take_of_le (by omega)⟩, rfl⟩
        · refine Reader.bind_eq_more.mpr (.inl (ih ?_))
          rw [List.length_drop, total]
          omega

theorem flushAsk_proper (hready : ¬n ≤ b.tail - b.head)
    (hn : n ≤ bufferedReaderBufSz) : b.flushAsk.Proper := by
  have htail := b.tail_le
  have hmoved : b.moveToFront.tail = b.tail - b.head := rfl
  unfold flushAsk
  dsimp only
  split
  · constructor
    all_goals
      dsimp only
      omega
  · constructor
    all_goals
      dsimp only
      omega

theorem ensureAsks_proper (hn : n ≤ bufferedReaderBufSz) :
    ∀ a ∈ ensureAsks n fuel b, a.Proper := by
  induction fuel generalizing b with
  | zero => nofun
  | succ fuel ih =>
      rw [ensureAsks]
      split
      · nofun
      · rename_i hready
        intro a ha
        rcases List.mem_cons.mp ha with rfl | ha
        · exact flushAsk_proper hready hn
        · obtain ⟨b₁, -, ha⟩ := List.mem_flatMap.mp ha
          exact ih a ha

theorem gatherAsks_proper (hn : n ≤ size) :
    ∀ a ∈ gatherAsks size fuel n incoming, a.Proper := by
  induction fuel generalizing n incoming with
  | zero => nofun
  | succ fuel ih =>
      rw [gatherAsks]
      split
      · nofun
      · rename_i hpos
        intro a ha
        rcases List.mem_cons.mp ha with rfl | ha
        · exact ⟨Nat.pos_of_ne_zero hpos, by dsimp only; omega⟩
        · obtain ⟨p, -, ha⟩ := List.mem_flatMap.mp ha
          exact ih (by omega) a ha

theorem asks_proper (b : BufferedReader) (op : Op) : ∀ a ∈ b.asks op, a.Proper := by
  cases op with
  | read length =>
      rw [asks]
      split
      · exact gatherAsks_proper (Nat.sub_le _ _)
      · exact ensureAsks_proper (by omega)
  | discard n hn => exact ensureAsks_proper hn
  | readByte | read32 => exact ensureAsks_proper (by decide)

theorem recv_of_flush (h : b.flush = some b') :
    ∃ l, recv b.flushAsk.length b.incoming = some (l, b'.incoming) := by
  have hincoming : (if b.head ≠ 0 then b.moveToFront else b).incoming =
      b.incoming := by
    split
    · rfl
    · rfl
  obtain ⟨p, hrecv, rfl⟩ := Option.map_eq_some_iff.mp h
  rw [← hincoming]
  exact ⟨p.1, hrecv⟩

theorem replay_ensureAsks {b₁ : { b : BufferedReader // n ≤ b.tail - b.head }}
    {more : Nat} (h : ensureLoop n fuel b = some b₁) :
    replay (ensureAsks n (fuel + more) b) b.incoming = some b₁.1.incoming := by
  induction fuel generalizing b with
  | zero =>
      rw [ensureLoop] at h
      split at h
      · rename_i hready
        cases h
        cases more with
        | zero => rfl
        | succ k =>
            rw [Nat.zero_add, ensureAsks, if_pos hready]
            rfl
      · cases h
  | succ fuel ih =>
      rw [Nat.succ_add, ensureAsks]
      rw [ensureLoop] at h
      split at h
      · rename_i hready
        cases h
        rw [if_pos hready]
        rfl
      · rename_i hready
        obtain ⟨b₂, hflush, hloop⟩ := Option.bind_eq_some_iff.mp h
        obtain ⟨l, hrecv⟩ := recv_of_flush hflush
        rw [if_neg hready, hflush, Option.toList_some, List.flatMap_singleton,
          replay, hrecv]
        exact ih hloop

theorem replay_gatherAsks {l : List UInt8} {more : Nat}
    (h : gather fuel n incoming = some (l, left)) :
    replay (gatherAsks size (fuel + more) n incoming) incoming = some left := by
  induction fuel generalizing n l incoming with
  | zero =>
      rw [gather] at h
      split at h
      · rename_i hn
        cases h
        cases more with
        | zero => rfl
        | succ k =>
            rw [Nat.zero_add, gatherAsks, if_pos hn]
            rfl
      · cases h
  | succ fuel ih =>
      rw [Nat.succ_add, gatherAsks]
      rw [gather] at h
      split at h
      · rename_i hn
        cases h
        rw [if_pos hn]
        rfl
      · rename_i hn
        obtain ⟨p, hrecv, hrest⟩ := Option.bind_eq_some_iff.mp h
        obtain ⟨q, hgather, heq⟩ := Option.map_eq_some_iff.mp hrest
        cases heq
        rw [if_neg hn, hrecv, Option.toList_some, List.flatMap_singleton, replay,
          hrecv]
        exact ih hgather

theorem replay_readBuffered {l : List UInt8}
    (h : (readBuffered n).run b = some (.ok (l, b'))) :
    replay (ensureAsks n (pending b.incoming + 1) b) b.incoming =
      some b'.incoming := by
  obtain ⟨b₁, hensure, heq⟩ := Option.map_eq_some_iff.mp h
  cases heq
  exact replay_ensureAsks hensure

theorem run_then_pure {α γ : Type} {x : BufferReceiver α} {g : α → γ} {c : γ}
    (h : (x >>= fun a => pure (g a)).run b = some (.ok (c, b'))) :
    ∃ a, x.run b = some (.ok (a, b')) := by
  rw [StateT.run_bind] at h
  change (x.run b : Option (Except Halt (α × BufferedReader))).bind _ = _ at h
  obtain ⟨r, hr, h⟩ := Option.bind_eq_some_iff.mp h
  rcases r with e | ⟨a, b₁⟩
  · cases h
  · cases h
    exact ⟨a, hr⟩

theorem replay_asks {l : List UInt8}
    (h : op.exec.run b = some (.ok (l, b'))) :
    replay (b.asks op) b.incoming = some b'.incoming := by
  cases op with
  | read length =>
      rw [asks]
      split
      · rename_i hlong
        rw [Op.exec, run_read_long hlong] at h
        obtain ⟨p, hgather, heq⟩ := Option.map_eq_some_iff.mp h
        cases heq
        rw [length_unread] at hgather
        exact replay_gatherAsks hgather
      · rename_i hshort
        rw [Op.exec, read, if_neg hshort] at h
        exact replay_readBuffered h
  | read32 => exact replay_readBuffered h
  | readByte =>
      obtain ⟨c, hrun⟩ := run_then_pure h
      obtain ⟨b₁, hensure, heq⟩ := Option.map_eq_some_iff.mp hrun
      cases heq
      exact replay_ensureAsks hensure
  | discard n hn =>
      obtain ⟨u, hrun⟩ := run_then_pure h
      obtain ⟨b₁, hensure, heq⟩ := Option.map_eq_some_iff.mp hrun
      cases heq
      exact replay_ensureAsks hensure

theorem cells_init (incoming : List (List UInt8)) :
    (init incoming).cells = incoming.flatten := by
  rw [cells, unread, init]
  simp

/--
For every stream, cut into chunks in every way, and every sequence of calls:
when the bytes they need are delivered, the calls return, with the next bytes of
the stream in order, and leave the rest, with `0 ≤ head ≤ tail ≤ size`; when the
bytes are not all delivered, they wait.  In whatever state a call is made, it
never asks the underlying reader for nothing or for more than fits.
-/
theorem refines_plain_stream (incoming : List (List UInt8)) (ops : List Op) :
    (total ops ≤ incoming.flatten.length →
      ∃ b, (execAll ops).run (init incoming) =
          some (.ok (results ops incoming.flatten, b)) ∧
        b.cells = incoming.flatten.drop (total ops) ∧
        b.head ≤ b.tail ∧ b.tail ≤ b.buffer.length) ∧
    (incoming.flatten.length < total ops →
      (execAll ops).run (init incoming) = none) ∧
    ∀ (b : BufferedReader) (op : Op),
      (∀ a ∈ b.asks op, 0 < a.length ∧ a.offset + a.length ≤ a.size) ∧
      ∀ l b', op.exec.run b = some (.ok (l, b')) →
        replay (b.asks op) b.incoming = some b'.incoming := by
  have himpl := execAll_implements ops
  refine ⟨fun h => ?_, fun h => ?_, fun b op => ⟨fun a ha => ?_, ?_⟩⟩
  · rw [← cells_init] at h ⊢
    obtain ⟨b, hrun, hcells⟩ := himpl.done _ _ _ (plainAll_eq_done h)
    refine ⟨b, hrun, hcells, b.head_le, ?_⟩
    rw [b.length_buffer]
    exact b.tail_le
  · rw [← cells_init] at h
    exact himpl.more _ (plainAll_eq_more h)
  · exact ⟨(asks_proper b op a ha).pos, (asks_proper b op a ha).fits⟩
  · intro l b' h
    exact replay_asks h

end BufferedReader

end CntPeer
