import CntPeer.Io.BufferedReader
import CntPeer.Io.BufferedWriter
import CntPeer.Msg.Frames

/-!
# Messages through buffers

`writeTo` and `readFrom` work on buffers, which decide on their own when bytes
travel.  The readers implement those of the byte stream, so a message arrives
as it was written unless the writer loses bytes.
-/

namespace CntPeer.Buffered

open CntPeer.Foundation CntPeer.Foundation.Reader

variable (md5 : List UInt8 → Digest)

def write32htonl (value : Int) : List WriterAct := [.write (word32 value)]

def readVector (size : Int) : BufferReceiver (List UInt8) :=
  if size < 0 then throw .crash else BufferedReader.read size.toNat

namespace HandshakeMsg

def writeTo (peerId : Int) : List WriterAct :=
  .write HandshakeMsg.leading :: write32htonl peerId

def readFrom : BufferReceiver Int := do
  let buf ← BufferedReader.read HandshakeMsg.leading.length
  if buf = HandshakeMsg.leading then BufferedReader.read32ntohl
  else throw (.panic .handshakePrefix)

end HandshakeMsg

namespace ActualMsg

def writePayloadTo : ActualMsg → List WriterAct
  | .haveMsg pieceId | .requestMsg pieceId => write32htonl pieceId
  | .bitfieldMsg snapshot => [.write (snapshot.map PieceStatus.toByte)]
  | .pieceMsg pieceId piece =>
      write32htonl pieceId ++ [.write (md5 piece).toList, .write piece]
  | _ => []

def writeTo (m : ActualMsg) : List WriterAct :=
  write32htonl (m.payloadSize + 1) ++
    (.writeByte m.type.toByte :: writePayloadTo md5 m)

def readPayload (n : Int) : MsgType → BufferReceiver ActualMsg
  | .choke => return .chokeMsg
  | .unchoke => return .unchokeMsg
  | .interested => return .interestedMsg
  | .notInterested => return .notInterestedMsg
  | .tearDown => return .tearDownMsg
  | .have_ => do
      let pieceId ← BufferedReader.read32ntohl
      return .haveMsg pieceId
  | .bitfield => do
      let snapshot ← readVector (wrap32 (n - 1))
      return .bitfieldMsg (snapshot.map PieceStatus.ofByte)
  | .request => do
      let pieceId ← BufferedReader.read32ntohl
      return .requestMsg pieceId
  | .piece => do
      let pieceId ← BufferedReader.read32ntohl
      let peerMd5 ← BufferedReader.read 16
      let piece ← readVector (wrap32 (n - 1 - 4 - 16))
      if peerMd5 = (md5 piece).toList then return .pieceMsg pieceId piece
      else throw (.panic (.md5Mismatch pieceId))

def readFrom : BufferReceiver ActualMsg := do
  let n ← BufferedReader.read32ntohl
  let type ← BufferedReader.readByte
  match MsgType.ofByte? type with
  | some t => readPayload md5 n t
  | none => throw (.panic .unknownMessageType)

end ActualMsg

inductive Call where
  | writeTo (m : ActualMsg)
  | flush

def Call.acts : Call → List WriterAct
  | writeTo m => ActualMsg.writeTo md5 m
  | flush => [.flush]

def Call.msg? : Call → Option ActualMsg
  | writeTo m => some m
  | flush => none

def transmission (peerId : Int) (calls : List Call) : List WriterAct :=
  HandshakeMsg.writeTo peerId ++ calls.flatMap (Call.acts md5) ++ [.flush]

def messages (calls : List Call) : List ActualMsg := calls.filterMap Call.msg?

def reception (n : Nat) : BufferReceiver (Int × List ActualMsg) := do
  let peerId ← HandshakeMsg.readFrom
  let ms ← times (ActualMsg.readFrom md5) n
  return (peerId, ms)

/-- What was written is read, however it is cut, and nothing is left. -/
def RoundTrip (grow : Nat → Nat) (peerId : Int) (calls : List Call) : Prop :=
  ∃ w, run (BufferedWriter.step grow) BufferedWriter.init
      (transmission md5 peerId calls) = some w ∧
    ∀ chunks : List (List UInt8), chunks.flatten = w.sent →
      ∃ b, (reception md5 (messages calls).length).run
          (BufferedReader.init chunks) =
        some (.ok ((peerId, messages calls), b)) ∧ b.cells = []

variable {md5} {peerId : Int} {calls : List Call}

theorem readVector_implements (size : Int) :
    Implements BufferedReader.cells (readVector size)
      (CntPeer.readVector size) := by
  unfold readVector CntPeer.readVector
  split
  · exact .throw _
  · exact BufferedReader.read_implements _

theorem HandshakeMsg.readFrom_implements :
    Implements BufferedReader.cells HandshakeMsg.readFrom
      CntPeer.HandshakeMsg.readFrom := by
  refine (BufferedReader.read_implements _).bind fun buf => ?_
  split
  · exact BufferedReader.read32ntohl_implements
  · exact .throw _

namespace ActualMsg

theorem readPayload_implements (n : Int) (t : MsgType) :
    Implements BufferedReader.cells (readPayload md5 n t)
      (CntPeer.ActualMsg.readPayload md5 n t) := by
  cases t with
  | have_ | request =>
      exact BufferedReader.read32ntohl_implements.bind fun pieceId => .pure _
  | bitfield => exact (readVector_implements _).bind fun snapshot => .pure _
  | piece =>
      refine BufferedReader.read32ntohl_implements.bind fun pieceId =>
        (BufferedReader.read_implements 16).bind fun peerMd5 =>
          (readVector_implements _).bind fun piece => ?_
      split
      · exact .pure _
      · exact .throw _
  | _ => exact .pure _

theorem readFrom_implements :
    Implements BufferedReader.cells (readFrom md5)
      (CntPeer.ActualMsg.readFrom md5) := by
  refine BufferedReader.read32ntohl_implements.bind fun n =>
    BufferedReader.readByte_implements.bind fun type => ?_
  cases MsgType.ofByte? type with
  | some t => exact readPayload_implements n t
  | none => exact .throw _

theorem bytes_writeTo (m : ActualMsg) :
    (writeTo md5 m).flatMap WriterAct.bytes = m.writeTo md5 := by
  cases m with
  | pieceMsg pieceId piece =>
      simp [writeTo, writePayloadTo, write32htonl, WriterAct.bytes,
        CntPeer.ActualMsg.writeTo, CntPeer.ActualMsg.writePayloadTo,
        CntPeer.write32htonl]
  | _ =>
      simp [writeTo, writePayloadTo, write32htonl, WriterAct.bytes,
        CntPeer.ActualMsg.writeTo, CntPeer.ActualMsg.writePayloadTo,
        CntPeer.write32htonl]

end ActualMsg

def encoding (md5 : List UInt8 → Digest) (peerId : Int) (ms : List ActualMsg) :
    List UInt8 :=
  CntPeer.HandshakeMsg.writeTo peerId ++ ms.flatMap (CntPeer.ActualMsg.writeTo md5)

theorem bytes_calls (calls : List Call) :
    (calls.flatMap (Call.acts md5)).flatMap WriterAct.bytes =
      (messages calls).flatMap (CntPeer.ActualMsg.writeTo md5) := by
  induction calls with
  | nil => rfl
  | cons c calls ih =>
      rw [List.flatMap_cons, List.flatMap_append, ih]
      cases c with
      | writeTo m =>
          rw [Call.acts, ActualMsg.bytes_writeTo]
          rfl
      | flush => rfl

theorem bytes_transmission (peerId : Int) (calls : List Call) :
    (transmission md5 peerId calls).flatMap WriterAct.bytes =
      encoding md5 peerId (messages calls) := by
  rw [transmission, List.flatMap_append, List.flatMap_append, bytes_calls]
  simp [encoding, HandshakeMsg.writeTo, write32htonl, WriterAct.bytes,
    CntPeer.HandshakeMsg.writeTo, CntPeer.write32htonl]

def receptionStream (md5 : List UInt8 → Digest) (n : Nat) :
    ByteReader (Int × List ActualMsg) := do
  let peerId ← CntPeer.HandshakeMsg.readFrom
  let ms ← times (CntPeer.ActualMsg.readFrom md5) n
  return (peerId, ms)

theorem reception_implements (n : Nat) :
    Implements BufferedReader.cells (reception md5 n) (receptionStream md5 n) :=
  HandshakeMsg.readFrom_implements.bind fun peerId =>
    (ActualMsg.readFrom_implements.times n).bind fun ms => .pure (peerId, ms)

theorem reads_encoding {ms : List ActualMsg} (hid : InWord peerId)
    (hms : ∀ m ∈ ms, m.Fits) :
    Reads (receptionStream md5 ms.length) (encoding md5 peerId ms)
      (peerId, ms) := by
  have hmessages : Reads (times (CntPeer.ActualMsg.readFrom md5) ms.length)
      (ms.flatMap (CntPeer.ActualMsg.writeTo md5)) ms :=
    .times fun m hm => CntPeer.ActualMsg.reads_readFrom (hms m hm)
  exact (CntPeer.HandshakeMsg.reads_readFrom hid).bind
    (hmessages.then_pure (peerId, ·))

theorem length_of_times {n : Nat} {ms : List ActualMsg} {l rest : List UInt8}
    (h : times (CntPeer.ActualMsg.readFrom md5) n l = .done ms rest) :
    l.length =
      (ms.flatMap (CntPeer.ActualMsg.writeTo md5)).length + rest.length := by
  induction n generalizing l ms with
  | zero =>
      obtain ⟨rfl, rfl⟩ := pure_eq_done.mp h
      exact (Nat.zero_add _).symm
  | succ n ih =>
      obtain ⟨m, left, hread, h⟩ := bind_eq_done.mp h
      obtain ⟨ms', left', htimes, h⟩ := bind_eq_done.mp h
      obtain ⟨rfl, rfl⟩ := pure_eq_done.mp h
      obtain ⟨k, -, rfl⟩ := CntPeer.ActualMsg.readFrom_eq_done.mp hread
      have hframe : ((m.frame md5 k).length : Int) = 5 + m.payloadSize :=
        CntPeer.ActualMsg.length_frame k m
      have hwrite : ((m.writeTo md5).length : Int) = 5 + m.payloadSize :=
        CntPeer.ActualMsg.length_frame (m.payloadSize + 1) m
      rw [List.length_append, ih htimes, List.flatMap_cons, List.length_append]
      omega

theorem length_of_reception {n : Nat} {ms : List ActualMsg}
    {l rest : List UInt8}
    (h : receptionStream md5 n l = .done (peerId, ms) rest) :
    l.length = (encoding md5 peerId ms).length + rest.length := by
  obtain ⟨id, left, hread, h⟩ := bind_eq_done.mp h
  obtain ⟨ms', left', htimes, h⟩ := bind_eq_done.mp h
  obtain ⟨heq, rfl⟩ := pure_eq_done.mp h
  cases heq
  rw [CntPeer.HandshakeMsg.readFrom, bind_eq_done] at hread
  obtain ⟨buf, left₁, htake, hread⟩ := hread
  obtain ⟨rfl, hbuf⟩ := take_eq_done.mp htake
  split at hread
  · obtain ⟨-, rfl⟩ := word_eq_done.mp hread
    have hlength := length_of_times htimes
    simp only [encoding, CntPeer.HandshakeMsg.writeTo, CntPeer.write32htonl,
      List.length_append]
    omega
  · exact absurd hread fail_ne_done

structure Sendable (m : ActualMsg) : Prop where
  fits : m.Fits
  size : m.payloadSize + 1 < 2 ^ 31

theorem inRange_word (v : Int) : (WriterAct.write (word32 v)).InRange := by
  rw [WriterAct.InRange, WriterAct.bytes, length_word32]
  decide

theorem inRange_writeTo {m : ActualMsg} (hm : Sendable m) {a : WriterAct}
    (ha : a ∈ ActualMsg.writeTo md5 m) : a.InRange := by
  have hsize := hm.size
  rcases List.mem_append.mp ha with ha | ha
  · obtain rfl := List.mem_singleton.mp ha
    exact inRange_word _
  rcases List.mem_cons.mp ha with rfl | ha
  · exact Nat.one_lt_two_pow (by decide)
  cases m with
  | haveMsg pieceId | requestMsg pieceId =>
      obtain rfl := List.mem_singleton.mp ha
      exact inRange_word _
  | bitfieldMsg snapshot =>
      obtain rfl := List.mem_singleton.mp ha
      rw [WriterAct.InRange, WriterAct.bytes, List.length_map]
      rw [CntPeer.ActualMsg.payloadSize] at hsize
      omega
  | pieceMsg pieceId piece =>
      rw [CntPeer.ActualMsg.payloadSize] at hsize
      rcases List.mem_append.mp ha with ha | ha
      · obtain rfl := List.mem_singleton.mp ha
        exact inRange_word _
      rcases List.mem_pair.mp ha with rfl | rfl
      · rw [WriterAct.InRange, WriterAct.bytes, Vector.length_toList]
        decide
      · rw [WriterAct.InRange, WriterAct.bytes]
        omega
  | _ => cases ha

theorem inRange_transmission (hms : ∀ m ∈ messages calls, Sendable m)
    {a : WriterAct} (ha : a ∈ transmission md5 peerId calls) : a.InRange := by
  rcases List.mem_append.mp ha with ha | ha
  · rcases List.mem_append.mp ha with ha | ha
    · rcases List.mem_pair.mp ha with rfl | rfl
      · decide
      · exact inRange_word _
    · obtain ⟨c, hc, ha⟩ := List.mem_flatMap.mp ha
      cases c with
      | writeTo m =>
          exact inRange_writeTo (hms m (List.mem_filterMap.mpr ⟨_, hc, rfl⟩)) ha
      | flush =>
          obtain rfl := List.mem_singleton.mp ha
          decide
  · obtain rfl := List.mem_singleton.mp ha
    decide

theorem cells_init (chunks : List (List UInt8)) :
    (BufferedReader.init chunks).cells = chunks.flatten := by
  rw [BufferedReader.cells, BufferedReader.unread]
  rfl

theorem moderate_of_roundTrip {grow : Nat → Nat}
    (h : RoundTrip md5 grow peerId calls) :
    BufferedWriter.init.fill.Moderate grow (transmission md5 peerId calls) := by
  obtain ⟨w, hrun, hread⟩ := h
  obtain ⟨b, hb, hcells⟩ := hread [w.sent] (by simp)
  have hstream := (reception_implements _).reads_of_run hb
  have hlength := length_of_reception hstream
  have hbuffer := BufferedWriter.buffer_of_run_flush hrun
  apply (BufferedWriter.moderate_of_run hrun).2
  rw [cells_init, hcells, ← bytes_transmission] at hlength
  simpa [BufferedWriter.written, hbuffer, BufferedWriter.init] using hlength

/-- Messages arrive when no flush finds more bytes than an `int` counts. -/
theorem transport_round_trip (md5 : List UInt8 → Digest) (grow : Nat → Nat)
    (peerId : Int) (calls : List Call) (hid : InWord peerId)
    (hms : ∀ m ∈ messages calls, Sendable m) :
    RoundTrip md5 grow peerId calls ↔
      BufferedWriter.init.fill.Moderate grow (transmission md5 peerId calls) := by
  constructor
  · exact moderate_of_roundTrip
  · intro hmoderate
    obtain ⟨w, hrun, hwritten⟩ := BufferedWriter.run_of_moderate
      (fun a ha => inRange_transmission hms ha) hmoderate
    refine ⟨w, hrun, fun chunks hchunks => ?_⟩
    have hbuffer := BufferedWriter.buffer_of_run_flush hrun
    rw [bytes_transmission, BufferedWriter.written, hbuffer, List.append_nil]
      at hwritten
    have hstream : chunks.flatten = encoding md5 peerId (messages calls) :=
      hchunks.trans hwritten
    have hreads : Reads (receptionStream md5 (messages calls).length)
        (encoding md5 peerId (messages calls)) (peerId, messages calls) :=
      reads_encoding hid fun m hm => (hms m hm).fits
    refine (reception_implements _).done _ _ _ ?_
    rw [cells_init, hstream]
    simpa using hreads []

def conversation : List Call :=
  [.writeTo (.bitfieldMsg [.owned, .absent]), .writeTo .unchokeMsg, .flush,
    .writeTo (.requestMsg 1), .writeTo (.pieceMsg 0 [7, 8])]

theorem transport_round_trip_conversation :
    RoundTrip (fun _ => Vector.replicate 16 0) (2 * ·) 1001 conversation := by
  refine (transport_round_trip _ _ 1001 conversation (by decide) ?_).mpr
    (Fill.moderate_of_length (by decide))
  intro m hm
  simp only [messages, conversation, Call.msg?, List.filterMap_cons,
    List.filterMap_nil, List.mem_cons, List.not_mem_nil, or_false] at hm
  rcases hm with rfl | rfl | rfl | rfl
  all_goals constructor
  all_goals decide

theorem fill_bitfield {f : Fill} {snapshot : List PieceStatus} {c : Nat}
    (hlength : f.size + 4 ≤ f.capacity)
    (htype : (if f.size + 4 < f.capacity then f.capacity
      else 2 * f.capacity) = c)
    (hfits : f.size + 5 + snapshot.length ≤ c) :
    (Call.acts md5 (.writeTo (.bitfieldMsg snapshot))).foldl
        (Fill.after (2 * ·)) f = ⟨f.size + 5 + snapshot.length, c⟩ := by
  have h₁ : f.after (2 * ·) (.write (word32 ((snapshot.length : Int) + 1))) =
      ⟨f.size + 4, f.capacity⟩ := by
    rw [Fill.after_write (by rw [length_word32]; exact hlength), length_word32]
  have h₂ : Fill.after (2 * ·) ⟨f.size + 4, f.capacity⟩
      (.writeByte MsgType.bitfield.toByte) = ⟨f.size + 5, c⟩ := by
    rw [← htype]
    rfl
  have h₃ : Fill.after (2 * ·) ⟨f.size + 5, c⟩
      (.write (snapshot.map PieceStatus.toByte)) =
      ⟨f.size + 5 + snapshot.length, c⟩ := by
    rw [Fill.after_write (by rw [List.length_map]; exact hfits), List.length_map]
  calc
    _ = Fill.after (2 * ·) (Fill.after (2 * ·) (Fill.after (2 * ·) f
          (.write (word32 ((snapshot.length : Int) + 1))))
          (.writeByte MsgType.bitfield.toByte))
          (.write (snapshot.map PieceStatus.toByte)) := rfl
    _ = _ := by rw [h₁, h₂, h₃]

def doubling (n : Nat) : List Call :=
  (List.range n).map fun j =>
    .writeTo (.bitfieldMsg (List.replicate (2 ^ (16 + j) - 5) .absent))

theorem fill_doubling (n : Nat) :
    ((doubling n).flatMap (Call.acts md5)).foldl (Fill.after (2 * ·))
        ⟨2 ^ 16 - 4, 2 ^ 16⟩ =
      ⟨2 ^ (16 + n) - 4, 2 ^ (16 + n)⟩ := by
  induction n with
  | zero => rfl
  | succ n ih =>
      have hlarge : 2 ^ 16 ≤ 2 ^ (16 + n) :=
        Nat.pow_le_pow_right (by decide) (Nat.le_add_right 16 n)
      rw [doubling, List.range_succ, List.map_append, List.flatMap_append,
        List.foldl_append]
      change (Call.acts md5 _ ++ []).foldl _ (((doubling n).flatMap _).foldl _ _) = _
      have hfull : 2 ^ (16 + n) - 4 + 4 = 2 ^ (16 + n) :=
        Nat.sub_add_cancel (by omega)
      rw [ih, List.append_nil, fill_bitfield hfull.le
        (if_neg (not_lt_of_ge hfull.ge)), List.length_replicate]
      · change Fill.mk (2 ^ (16 + n) - 4 + 5 + (2 ^ (16 + n) - 5))
          (2 * 2 ^ (16 + n)) = _
        rw [Fill.mk.injEq, ← Nat.add_assoc, Nat.pow_succ]
        omega
      · rw [List.length_replicate]
        change 2 ^ (16 + n) - 4 + 5 + (2 ^ (16 + n) - 5) ≤ 2 * 2 ^ (16 + n)
        omega

def overfull : List Call :=
  .writeTo (.bitfieldMsg (List.replicate 65495 .absent)) ::
    (doubling 15 ++ [.writeTo .chokeMsg])

theorem sendable_bitfield {snapshot : List PieceStatus}
    (h : snapshot.length + 1 < 2 ^ 31) : Sendable (.bitfieldMsg snapshot) where
  fits := Nat.lt_of_succ_lt h
  size := by
    rw [CntPeer.ActualMsg.payloadSize]
    exact_mod_cast h

theorem sendable_overfull {m : ActualMsg} (hm : m ∈ messages overfull) :
    Sendable m := by
  obtain ⟨c, hc, hmsg⟩ := List.mem_filterMap.mp hm
  rcases List.mem_cons.mp hc with rfl | hc
  · cases hmsg
    apply sendable_bitfield
    rw [List.length_replicate]
    decide
  rcases List.mem_append.mp hc with hc | hc
  · obtain ⟨j, hj, rfl⟩ := List.mem_map.mp hc
    cases hmsg
    apply sendable_bitfield
    have hle : 2 ^ (16 + j) ≤ 2 ^ 30 :=
      Nat.pow_le_pow_right (by decide) (by rw [List.mem_range] at hj; omega)
    rw [List.length_replicate]
    omega
  · obtain rfl := List.mem_singleton.mp hc
    cases hmsg
    exact ⟨trivial, by decide⟩

theorem fill_opening (peerId : Int) :
    (HandshakeMsg.writeTo peerId ++ Call.acts md5
        (.writeTo (.bitfieldMsg (List.replicate 65495 .absent)))).foldl
        (Fill.after (2 * ·)) BufferedWriter.init.fill =
      ⟨2 ^ 16 - 4, 2 ^ 16⟩ := by
  have hhandshake : (HandshakeMsg.writeTo peerId).foldl (Fill.after (2 * ·))
      BufferedWriter.init.fill = ⟨32, 2 ^ 16⟩ := by
    change Fill.after (2 * ·) ⟨28, 65536⟩ (.write (word32 peerId)) = _
    rw [Fill.after_write (by rw [length_word32]; decide), length_word32]
    rfl
  rw [List.foldl_append, hhandshake, fill_bitfield (by decide) (if_pos (by decide)),
    List.length_replicate]
  · rfl
  · rw [List.length_replicate]
    decide

theorem overfull_not_moderate (peerId : Int) :
    ¬ BufferedWriter.init.fill.Moderate (2 * ·)
      (transmission md5 peerId overfull) := by
  intro h
  have hacts : transmission md5 peerId overfull =
      (HandshakeMsg.writeTo peerId ++ Call.acts md5
        (.writeTo (.bitfieldMsg (List.replicate 65495 .absent)))) ++
      ((doubling 15).flatMap (Call.acts md5) ++
        (Call.acts md5 (.writeTo .chokeMsg) ++ [.flush])) := by
    simp only [transmission, overfull, List.flatMap_cons, List.flatMap_append,
      List.flatMap_nil, List.append_nil, List.append_assoc]
  rw [hacts] at h
  have h₁ := (Fill.moderate_append.mp h).2
  rw [fill_opening] at h₁
  have h₂ := (Fill.moderate_append.mp h₁).2
  rw [fill_doubling] at h₂
  obtain ⟨-, -, hflush, -⟩ := h₂
  exact absurd (hflush rfl) (by decide)

/-- Two gigabytes wait for a flush, and their number is negative as an `int`. -/
theorem transport_overfull :
    InWord 1001 ∧ (∀ m ∈ messages overfull, Sendable m) ∧
      ¬ RoundTrip (fun _ => Vector.replicate 16 0) (2 * ·) 1001 overfull :=
  ⟨by decide, fun _ => sendable_overfull,
    fun h => overfull_not_moderate 1001 (moderate_of_roundTrip h)⟩

end CntPeer.Buffered
