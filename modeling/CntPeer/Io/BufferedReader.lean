import Mathlib.Order.Basic
import CntPeer.Foundation.ByteFile
import CntPeer.Foundation.Chunks
import CntPeer.Foundation.NetworkOrder
import CntPeer.Panic

/-!
# `BufferedReader`

The bytes from `head` to `tail` of a vector of fixed size were received and are
still to be read.  Reads that are longer than the vector go past it.
-/

namespace CntPeer

open CntPeer.Foundation

def bufferedReaderBufSz : Nat := 65536

structure BufferedReader where
  /-- the chunks in which the rest of the stream arrives -/
  incoming : List (List UInt8)
  buffer : List UInt8
  head : Nat
  tail : Nat
  length_buffer : buffer.length = bufferedReaderBufSz
  head_le : head ≤ tail
  tail_le : tail ≤ bufferedReaderBufSz

abbrev BufferReceiver := Receiver BufferedReader Halt

namespace BufferedReader

def init (incoming : List (List UInt8)) : BufferedReader where
  incoming := incoming
  buffer := List.replicate bufferedReaderBufSz 0
  head := 0
  tail := 0
  length_buffer := List.length_replicate
  head_le := le_rfl
  tail_le := Nat.zero_le _

def unread (b : BufferedReader) : List UInt8 := (b.buffer.take b.tail).drop b.head

def cells (b : BufferedReader) : List UInt8 := b.unread ++ b.incoming.flatten

theorem length_unread (b : BufferedReader) : b.unread.length = b.tail - b.head := by
  have hlength := b.length_buffer
  have htail := b.tail_le
  rw [unread, List.length_drop, List.length_take_of_le (by omega)]

def moveToFront (b : BufferedReader) : BufferedReader where
  incoming := b.incoming
  buffer := writeAt 0 b.buffer 0 b.unread
  head := 0
  tail := b.tail - b.head
  length_buffer := by
    have hlength := b.length_buffer
    have htail := b.tail_le
    rw [length_writeAt_within (by rw [length_unread]; omega), hlength]
  head_le := Nat.zero_le _
  tail_le := (Nat.sub_le _ _).trans b.tail_le

def fill (b : BufferedReader)
    (l : { l : List UInt8 // l.length ≤ bufferedReaderBufSz - b.tail })
    (incoming : List (List UInt8)) : BufferedReader where
  incoming := incoming
  buffer := writeAt 0 b.buffer b.tail l.1
  head := b.head
  tail := b.tail + l.1.length
  length_buffer := by
    have hlength := b.length_buffer
    have htail := b.tail_le
    have hl := l.2
    rw [length_writeAt_within (by omega), hlength]
  head_le := b.head_le.trans (Nat.le_add_right _ _)
  tail_le := by
    have htail := b.tail_le
    have hl := l.2
    omega

def flush (b : BufferedReader) : Option BufferedReader :=
  let b := if b.head ≠ 0 then b.moveToFront else b
  (recv (bufferedReaderBufSz - b.tail) b.incoming).map fun p => b.fill p.1 p.2

def ensureLoop (n : Nat) : Nat → BufferedReader →
    Option { b : BufferedReader // n ≤ b.tail - b.head }
  | 0, b => if h : n ≤ b.tail - b.head then some ⟨b, h⟩ else none
  | fuel + 1, b =>
      if h : n ≤ b.tail - b.head then some ⟨b, h⟩
      else b.flush.bind (ensureLoop n fuel)

def ensure (n : Nat) (b : BufferedReader) :
    Option { b : BufferedReader // n ≤ b.tail - b.head } :=
  ensureLoop n (pending b.incoming) b

def advance (n : Nat) (b : { b : BufferedReader // n ≤ b.tail - b.head }) :
    BufferedReader where
  incoming := b.1.incoming
  buffer := b.1.buffer
  head := b.1.head + n
  tail := b.1.tail
  length_buffer := b.1.length_buffer
  head_le := by
    have hhead := b.1.head_le
    have hn := b.2
    omega
  tail_le := b.1.tail_le

def readBuffered (n : Nat) : BufferReceiver (List UInt8) := fun b =>
  (b.ensure n).map fun b => .ok ((b.1.buffer.drop b.1.head).take n, advance n b)

/-- The loop of a long read, which bypasses the vector. -/
def readDirect (n : Nat) : BufferReceiver (List UInt8) := fun b =>
  (gather (pending b.incoming) n b.incoming).map fun p =>
    .ok (p.1, { b with incoming := p.2 })

def read (length : Nat) : BufferReceiver (List UInt8) :=
  if bufferedReaderBufSz < length then do
    let b ← get
    let first ← readBuffered (b.tail - b.head)
    let rest ← readDirect (length - first.length)
    return first ++ rest
  else readBuffered length

def readByte : BufferReceiver UInt8 := fun b =>
  (b.ensure 1).map fun b =>
    .ok (b.1.buffer.get ⟨b.1.head, by
      have hn := b.2
      have hlength := b.1.length_buffer
      have htail := b.1.tail_le
      omega⟩, advance 1 b)

def read32 : BufferReceiver (List UInt8) := readBuffered 4

def read32ntohl : BufferReceiver Int := do
  let l ← read32
  return ofWord32 l

variable {b b' : BufferedReader} {n : Nat}

theorem unread_moveToFront (b : BufferedReader) :
    b.moveToFront.unread = b.unread := by
  have h : (writeAt 0 b.buffer 0 b.unread).take (0 + b.unread.length) =
      b.buffer.take 0 ++ b.unread := take_writeAt (Nat.zero_le _)
  rwa [length_unread, Nat.zero_add] at h

theorem unread_fill (b : BufferedReader)
    (l : { l : List UInt8 // l.length ≤ bufferedReaderBufSz - b.tail })
    (incoming : List (List UInt8)) :
    (b.fill l incoming).unread = b.unread ++ l.1 := by
  have hlength := b.length_buffer
  have htail := b.tail_le
  have hhead := b.head_le
  change ((writeAt 0 b.buffer b.tail l.1).take (b.tail + l.1.length)).drop
    b.head = _
  rw [take_writeAt (by omega), List.drop_append_of_le_length, unread]
  rw [List.length_take_of_le (by omega)]
  exact hhead

theorem flush_eq_none : b.flush = none ↔ b.incoming = [] := by
  unfold flush
  split
  · exact Option.map_eq_none_iff.trans recv_eq_none
  · exact Option.map_eq_none_iff.trans recv_eq_none

theorem flush_spec (h : b.flush = some b') :
    b'.cells = b.cells ∧ (b.unread.length < bufferedReaderBufSz →
      pending b'.incoming < pending b.incoming) := by
  have hfill : ∀ {a : BufferedReader}, a.unread = b.unread →
      a.incoming = b.incoming → (b.unread.length < bufferedReaderBufSz →
        a.tail < bufferedReaderBufSz) →
      (recv (bufferedReaderBufSz - a.tail) a.incoming).map
        (fun p => a.fill p.1 p.2) = some b' →
      b'.cells = b.cells ∧ (b.unread.length < bufferedReaderBufSz →
        pending b'.incoming < pending b.incoming) := by
    intro a hunread hincoming hroom ha
    obtain ⟨⟨l, left⟩, hrecv, rfl⟩ := Option.map_eq_some_iff.mp ha
    constructor
    · change (a.fill l left).unread ++ left.flatten = _
      rw [unread_fill, hunread, List.append_assoc, flatten_of_recv hrecv,
        hincoming]
      rfl
    · intro hlt
      have htail := hroom hlt
      rw [← hincoming]
      exact pending_of_recv hrecv (by omega)
  unfold flush at h
  split at h
  · refine hfill (unread_moveToFront b) rfl ?_ h
    rw [length_unread]
    exact id
  · rename_i hhead
    refine hfill rfl rfl ?_ h
    rw [length_unread]
    omega

theorem length_cells (b : BufferedReader) :
    b.cells.length = b.tail - b.head + b.incoming.flatten.length := by
  rw [cells, List.length_append, length_unread]

theorem ensureLoop_eq_some {fuel : Nat} (hn : n ≤ bufferedReaderBufSz)
    (hfuel : pending b.incoming ≤ fuel) (h : n ≤ b.cells.length) :
    ∃ b', ensureLoop n fuel b = some b' ∧ b'.1.cells = b.cells := by
  induction fuel generalizing b with
  | zero =>
      have hempty : b.incoming.flatten.length = 0 := by
        rw [pending] at hfuel
        omega
      rw [length_cells, hempty] at h
      exact ⟨⟨b, h⟩, dif_pos h, rfl⟩
  | succ fuel ih =>
      by_cases hready : n ≤ b.tail - b.head
      · exact ⟨⟨b, hready⟩, dif_pos hready, rfl⟩
      rw [ensureLoop, dif_neg hready]
      cases hflush : b.flush with
      | none =>
          rw [length_cells, flush_eq_none.mp hflush] at h
          exact absurd h hready
      | some b₁ =>
          obtain ⟨hcells, hpending⟩ := flush_spec hflush
          rw [length_unread] at hpending
          have hless := hpending (by omega)
          rw [← hcells] at h ⊢
          exact ih (by omega) h

theorem ensureLoop_eq_none {fuel : Nat} (h : b.cells.length < n) :
    ensureLoop n fuel b = none := by
  have hready : ¬ n ≤ b.tail - b.head := by
    rw [length_cells] at h
    omega
  induction fuel generalizing b with
  | zero => exact dif_neg hready
  | succ fuel ih =>
      rw [ensureLoop, dif_neg hready]
      cases hflush : b.flush with
      | none => rfl
      | some b₁ =>
          rw [← (flush_spec hflush).1] at h
          refine ih h ?_
          rw [length_cells] at h
          omega

theorem ensure_eq_some (hn : n ≤ bufferedReaderBufSz) (h : n ≤ b.cells.length) :
    ∃ b', b.ensure n = some b' ∧ b'.1.cells = b.cells :=
  ensureLoop_eq_some hn le_rfl h

theorem ensure_eq_none (h : b.cells.length < n) : b.ensure n = none :=
  ensureLoop_eq_none h

theorem take_cells (b : { b : BufferedReader // n ≤ b.tail - b.head }) :
    (b.1.buffer.drop b.1.head).take n = b.1.cells.take n := by
  rw [cells, List.take_append_of_le_length (by rw [length_unread]; exact b.2),
    unread, List.drop_take, List.take_take, Nat.min_eq_left b.2]

theorem cells_advance (b : { b : BufferedReader // n ≤ b.tail - b.head }) :
    (advance n b).cells = b.1.cells.drop n := by
  rw [cells, cells, List.drop_append_of_le_length (by rw [length_unread]; exact b.2),
    unread, unread, List.drop_drop]
  rfl

theorem readBuffered_implements (hn : n ≤ bufferedReaderBufSz) :
    Implements cells (readBuffered n) (Reader.take n) where
  done b a rest h := by
    obtain ⟨hcells, rfl⟩ := Reader.take_eq_done.mp h
    obtain ⟨b', hensure, hcells'⟩ := ensure_eq_some (n := a.length) hn
      (b := b) (by rw [hcells, List.length_append]; omega)
    refine ⟨advance _ b', ?_, ?_⟩
    · change (b.ensure a.length).map _ = _
      rw [hensure, Option.map_some, take_cells, hcells', hcells, List.take_left]
    · rw [cells_advance, hcells', hcells, List.drop_left]
  more b h := by
    change (b.ensure n).map _ = _
    rw [ensure_eq_none (Reader.take_eq_more.mp h)]
    rfl
  fail b e h := absurd h Reader.take_ne_fail

theorem head_lt (b : { b : BufferedReader // 1 ≤ b.tail - b.head }) :
    b.1.head < b.1.buffer.length := by
  have hready := b.2
  have hlength := b.1.length_buffer
  have htail := b.1.tail_le
  omega

theorem head?_cells (b : { b : BufferedReader // 1 ≤ b.tail - b.head }) :
    b.1.cells.head? = some (b.1.buffer.get ⟨b.1.head, head_lt b⟩) := by
  have hready := b.2
  have hunread := b.1.length_unread
  rw [cells, List.head?_eq_getElem?, List.getElem?_append_left (by omega),
    unread, List.getElem?_drop, List.getElem?_take, if_pos (by omega)]
  exact List.getElem?_eq_getElem (head_lt b)

theorem readByte_implements : Implements cells readByte Reader.next where
  done b a rest h := by
    have hcells := Reader.next_eq_done.mp h
    obtain ⟨b', hensure, hcells'⟩ := ensure_eq_some (n := 1) (by decide)
      (b := b) (by rw [hcells, List.length_cons]; omega)
    have hbyte := head?_cells b'
    rw [hcells', hcells, List.head?_cons, Option.some.injEq] at hbyte
    refine ⟨advance 1 b', ?_, ?_⟩
    · change (b.ensure 1).map _ = _
      rw [hensure, Option.map_some, hbyte]
    · rw [cells_advance, hcells', hcells]
      rfl
  more b h := by
    have hnil := Reader.next_eq_more.mp h
    change (b.ensure 1).map _ = _
    rw [ensure_eq_none (by rw [hnil]; exact Nat.one_pos)]
    rfl
  fail b e h := absurd h Reader.next_ne_fail

theorem ensure_ready (h : n ≤ b.tail - b.head) : b.ensure n = some ⟨b, h⟩ := by
  unfold ensure
  cases pending b.incoming with
  | zero => exact dif_pos h
  | succ fuel => exact dif_pos h

def drained (b : BufferedReader) (incoming : List (List UInt8)) : BufferedReader :=
  { advance (b.tail - b.head) ⟨b, le_rfl⟩ with incoming }

theorem cells_drained (b : BufferedReader) (incoming : List (List UInt8)) :
    (b.drained incoming).cells = incoming.flatten := by
  have hhead := b.head_le
  have hlength := (b.drained incoming).length_unread
  have hnone : b.tail - (b.head + (b.tail - b.head)) = 0 := by omega
  have hunread : (b.drained incoming).unread = [] :=
    List.eq_nil_of_length_eq_zero (hlength.trans hnone)
  rw [cells, hunread]
  rfl

theorem run_readBuffered_ready (b : BufferedReader) :
    (readBuffered (b.tail - b.head)).run b =
      some (.ok (b.unread, advance (b.tail - b.head) ⟨b, le_rfl⟩)) := by
  change (b.ensure (b.tail - b.head)).map _ = _
  rw [ensure_ready le_rfl, Option.map_some, unread, List.drop_take]

theorem run_read_long (h : bufferedReaderBufSz < n) (b : BufferedReader) :
    (read n).run b = (gather (pending b.incoming) (n - b.unread.length)
      b.incoming).map fun p => .ok (b.unread ++ p.1, b.drained p.2) := by
  rw [read, if_pos h]
  change ((readBuffered (b.tail - b.head)).run b >>= fun p =>
    (readDirect (n - p.1.length)).run p.2 >>= fun q =>
      pure (p.1 ++ q.1, q.2) : ExceptT Halt Option (List UInt8 × BufferedReader)) = _
  rw [run_readBuffered_ready]
  change ((gather (pending b.incoming) (n - b.unread.length) b.incoming).map _ :
    Option (Except Halt (List UInt8 × BufferedReader))).bind _ = _
  cases gather (pending b.incoming) (n - b.unread.length) b.incoming with
  | none => rfl
  | some p => rfl

theorem read_implements (n : Nat) : Implements cells (read n) (Reader.take n) := by
  by_cases hn : bufferedReaderBufSz < n
  · constructor
    · intro b a rest h
      obtain ⟨hcells, rfl⟩ := Reader.take_eq_done.mp h
      have hunread := b.length_unread
      have htail := b.tail_le
      have hlength := congrArg List.length hcells
      rw [length_cells, List.length_append] at hlength
      obtain ⟨cs', hgather, hcs'⟩ := gather_eq_some (le_refl (pending b.incoming))
        (n := a.length - b.unread.length) (by omega)
      refine ⟨b.drained cs', ?_, ?_⟩
      · have htake := congrArg (List.take a.length) hcells
        rw [cells, List.take_append, List.take_of_length_le (by omega),
          List.take_left] at htake
        rw [run_read_long hn, hgather, Option.map_some, htake]
      · have hdrop := congrArg (List.drop a.length) hcells
        rw [cells, List.drop_append, List.drop_eq_nil_of_le (by omega),
          List.drop_left, List.nil_append] at hdrop
        rw [cells_drained, hcs', hdrop]
    · intro b h
      have hlt := Reader.take_eq_more.mp h
      have hunread := b.length_unread
      rw [length_cells] at hlt
      rw [run_read_long hn, gather_eq_none (by omega)]
      rfl
    · exact fun b e h => absurd h Reader.take_ne_fail
  · rw [read, if_neg hn]
    exact readBuffered_implements (by omega)

theorem read32ntohl_implements : Implements cells read32ntohl Reader.word :=
  (readBuffered_implements (by decide)).bind fun l => .pure (ofWord32 l)

end BufferedReader

end CntPeer
