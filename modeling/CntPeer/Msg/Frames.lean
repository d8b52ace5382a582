import CntPeer.Msg.Codec

/-!
# Which frames are accepted

A frame is a length, a type and a payload.  The reader counts bytes with the
length only where the payload is a vector; in front of any other payload it
accepts every length.
-/

namespace CntPeer

open CntPeer.Foundation CntPeer.Foundation.Reader

def MsgType.sized : MsgType → Bool
  | bitfield | piece => true
  | _ => false

/-- The length leaves that vector a size. -/
def MsgType.RoomIn (n : Int) : MsgType → Prop
  | bitfield => 1 ≤ n
  | piece => 21 ≤ n
  | _ => True

theorem MsgType.toByte_injective : Function.Injective MsgType.toByte := by
  intro t u h
  have hbyte := congrArg MsgType.ofByte? h
  rw [ofByte?_toByte, ofByte?_toByte] at hbyte
  exact Option.some.inj hbyte

theorem write32htonl_append_inj {n n' : Int} {l l' : List UInt8}
    (hn : InWord n) (hn' : InWord n')
    (h : write32htonl n ++ l = write32htonl n' ++ l') : n = n' ∧ l = l' := by
  obtain ⟨hword, hrest⟩ := List.append_inj h (by
    rw [write32htonl, write32htonl, length_word32, length_word32])
  have hnn := congrArg ofWord32 hword
  rw [write32htonl, write32htonl, ofWord32_word32, ofWord32_word32,
    wrap32_of_inWord hn, wrap32_of_inWord hn'] at hnn
  exact ⟨hnn, hrest⟩

namespace ActualMsg

variable (md5 : List UInt8 → Digest)

def frame (n : Int) (m : ActualMsg) : List UInt8 :=
  write32htonl n ++ ([m.type.toByte] ++ m.writePayloadTo md5)

/-- A length with which the message is accepted. -/
structure Accepts (n : Int) (m : ActualMsg) : Prop where
  inWord : InWord n
  fits : m.Fits
  sized : m.type.sized = true → n = wrap32 (m.payloadSize + 1)

/-- What stands behind the length `n` when the read fails. -/
inductive Rejects (n : Int) : List UInt8 → Halt → Prop
  | unknownType (type : UInt8) (rest : List UInt8)
      (h : MsgType.ofByte? type = none) :
      Rejects n (type :: rest) (.panic .unknownMessageType)
  | bitfieldSize (rest : List UInt8) (h : wrap32 (n - 1) < 0) :
      Rejects n (MsgType.bitfield.toByte :: rest) .crash
  | pieceSize (pieceId : Int) (peerMd5 rest : List UInt8)
      (hid : InWord pieceId) (hmd5 : peerMd5.length = 16)
      (h : wrap32 (n - 1 - 4 - 16) < 0) :
      Rejects n (MsgType.piece.toByte ::
        (write32htonl pieceId ++ (peerMd5 ++ rest))) .crash
  | md5Mismatch (pieceId : Int) (peerMd5 piece rest : List UInt8)
      (hid : InWord pieceId) (hmd5 : peerMd5.length = 16)
      (hsize : wrap32 (n - 1 - 4 - 16) = piece.length)
      (h : peerMd5 ≠ (md5 piece).toList) :
      Rejects n (MsgType.piece.toByte ::
        (write32htonl pieceId ++ (peerMd5 ++ (piece ++ rest))))
        (.panic (.md5Mismatch pieceId))

/-- What stands behind a length and a type from which a message is read. -/
structure Framed (n : Int) (t : MsgType) (body : List UInt8) (m : ActualMsg)
    (rest : List UInt8) : Prop where
  type : m.type = t
  fits : m.Fits
  sized : t.sized = true → n = m.payloadSize + 1
  payload : body = m.writePayloadTo md5 ++ rest

/-- A piece of `n - 21` bytes behind a digest that is not its own. -/
def Mismatched (n : Int) (body : List UInt8) (pieceId : Int) : Prop :=
  InWord pieceId ∧ ∃ peerMd5 piece rest : List UInt8,
    peerMd5.length = 16 ∧ n = piece.length + 21 ∧
      peerMd5 ≠ (md5 piece).toList ∧
      body = write32htonl pieceId ++ (peerMd5 ++ (piece ++ rest))

variable {md5} {n : Int} {m : ActualMsg} {l rest : List UInt8}

theorem length_writePayloadTo (m : ActualMsg) :
    ((m.writePayloadTo md5).length : Int) = m.payloadSize := by
  cases m with
  | haveMsg pieceId | requestMsg pieceId =>
      exact congrArg Nat.cast (length_word32 pieceId)
  | bitfieldMsg snapshot =>
      rw [writePayloadTo, List.length_map]
      rfl
  | pieceMsg pieceId piece =>
      rw [writePayloadTo, List.length_append, List.length_append,
        Vector.length_toList, write32htonl, length_word32]
      push_cast
      exact (Int.add_assoc _ _ _).symm
  | _ => rfl

theorem length_frame (n : Int) (m : ActualMsg) :
    ((m.frame md5 n).length : Int) = 5 + m.payloadSize := by
  have hpayload : ((m.writePayloadTo md5).length : Int) = m.payloadSize :=
    length_writePayloadTo m
  rw [frame, List.length_append, List.length_append, write32htonl,
    length_word32, List.length_singleton]
  omega

theorem frame_eq_writeTo (hn : InWord n) (m : ActualMsg) :
    m.frame md5 n = m.writeTo md5 ↔ n = wrap32 (m.payloadSize + 1) := by
  rw [frame, writeTo, List.append_left_inj, write32htonl, write32htonl]
  constructor
  · intro h
    have hword := congrArg ofWord32 h
    rwa [ofWord32_word32, ofWord32_word32, wrap32_of_inWord hn] at hword
  · rintro rfl
    exact word32_wrap32 _

theorem readPayload_of_not_sized {t : MsgType} (h : t.sized = false)
    (n n' : Int) : readPayload md5 n t = readPayload md5 n' t := by
  cases t with
  | bitfield => cases h
  | piece => cases h
  | _ => rfl

theorem reads_of_accepts (h : Accepts n m) :
    Reads (readPayload md5 n m.type) (m.writePayloadTo md5) m := by
  have hread : Reads (readPayload md5 (wrap32 (m.payloadSize + 1)) m.type)
      (m.writePayloadTo md5) m := reads_readPayload h.fits
  cases hsized : m.type.sized with
  | true => rwa [← h.sized hsized] at hread
  | false => rwa [readPayload_of_not_sized hsized _ n] at hread

theorem accepts_of_readPayload {t : MsgType} (hn : InWord n)
    (h : readPayload md5 n t l = .done m rest) :
    m.type = t ∧ Accepts n m ∧ l = m.writePayloadTo md5 ++ rest := by
  cases t with
  | have_ | request =>
      rw [readPayload, bind_eq_done] at h
      obtain ⟨pieceId, left, hword, hpure⟩ := h
      obtain ⟨hid, rfl⟩ := word_eq_done.mp hword
      obtain ⟨rfl, rfl⟩ := pure_eq_done.mp hpure
      exact ⟨rfl, ⟨hn, hid, by simp [type, MsgType.sized]⟩, rfl⟩
  | bitfield =>
      rw [readPayload, bind_eq_done] at h
      obtain ⟨snapshot, left, hread, hpure⟩ := h
      obtain ⟨rfl, hsize⟩ := readVector_eq_done.mp hread
      obtain ⟨rfl, rfl⟩ := pure_eq_done.mp hpure
      have hword : InWord snapshot.length := hsize ▸ inWord_wrap32 _
      refine ⟨rfl, ⟨hn, ?_, fun _ => ?_⟩, ?_⟩
      · rw [Fits, List.length_map]
        exact_mod_cast hword.2
      · rw [payloadSize, List.length_map]
        exact (wrap32_sub_eq_iff hn hword).mp hsize
      · rw [writePayloadTo, PieceStatus.map_toByte_ofByte]
  | piece =>
      rw [readPayload, bind_eq_done] at h
      obtain ⟨pieceId, left, hword, h⟩ := h
      obtain ⟨hid, rfl⟩ := word_eq_done.mp hword
      rw [bind_eq_done] at h
      obtain ⟨peerMd5, left, htake, h⟩ := h
      obtain ⟨rfl, -⟩ := take_eq_done.mp htake
      rw [bind_eq_done] at h
      obtain ⟨piece, left, hread, h⟩ := h
      obtain ⟨rfl, hsize⟩ := readVector_eq_done.mp hread
      split at h
      · rename_i hmd5
        obtain ⟨rfl, rfl⟩ := pure_eq_done.mp h
        have hword : InWord piece.length := hsize ▸ inWord_wrap32 _
        refine ⟨rfl, ⟨hn, ⟨hid, ?_⟩, fun _ => ?_⟩, ?_⟩
        · exact_mod_cast hword.2
        · rw [payloadSize, show (4 : Int) + 16 + piece.length + 1 =
            piece.length + 21 by omega]
          apply (wrap32_sub_eq_iff hn hword).mp
          rw [← hsize, show n - 1 - 4 - 16 = n - 21 by omega]
        · rw [writePayloadTo, hmd5, List.append_assoc, List.append_assoc]
          rfl
      · exact absurd h fail_ne_done
  | _ =>
      obtain ⟨rfl, rfl⟩ := pure_eq_done.mp h
      exact ⟨rfl, ⟨hn, trivial, by simp [type, MsgType.sized]⟩, rfl⟩

theorem readFrom_eq_done :
    readFrom md5 l = .done m rest ↔
      ∃ n, Accepts n m ∧ l = m.frame md5 n ++ rest := by
  constructor
  · intro h
    rw [readFrom, bind_eq_done] at h
    obtain ⟨n, left, hword, h⟩ := h
    obtain ⟨hn, rfl⟩ := word_eq_done.mp hword
    rw [bind_eq_done] at h
    obtain ⟨byte, left, hnext, h⟩ := h
    cases next_eq_done.mp hnext
    cases ht : MsgType.ofByte? byte with
    | some t =>
        rw [ht] at h
        obtain ⟨rfl, haccepts, rfl⟩ := accepts_of_readPayload hn h
        refine ⟨n, haccepts, ?_⟩
        rw [frame, MsgType.ofByte?_eq_some.mp ht]
        simp [write32htonl]
    | none =>
        rw [ht] at h
        exact absurd h fail_ne_done
  · rintro ⟨n, h, rfl⟩
    have hword : Reads read32ntohl (write32htonl n) n := by
      have hread := reads_word (ε := Halt) n
      rwa [wrap32_of_inWord h.inWord] at hread
    refine (hword.bind ((reads_next _).bind ?_)) rest
    rw [MsgType.ofByte?_toByte]
    exact reads_of_accepts h

theorem rejects_of_readPayload {t : MsgType} {e : Halt}
    (h : readPayload md5 n t l = .fail e) : Rejects md5 n (t.toByte :: l) e := by
  cases t with
  | have_ | request =>
      rw [readPayload, bind_eq_fail] at h
      rcases h with h | ⟨pieceId, left, hword, h⟩
      · exact absurd h word_ne_fail
      · exact absurd h pure_ne_fail
  | bitfield =>
      rw [readPayload, bind_eq_fail] at h
      rcases h with h | ⟨snapshot, left, hread, h⟩
      · obtain ⟨hneg, rfl⟩ := readVector_eq_fail.mp h
        exact .bitfieldSize l hneg
      · exact absurd h pure_ne_fail
  | piece =>
      rw [readPayload, bind_eq_fail] at h
      rcases h with h | ⟨pieceId, left, hword, h⟩
      · exact absurd h word_ne_fail
      obtain ⟨hid, rfl⟩ := word_eq_done.mp hword
      rw [bind_eq_fail] at h
      rcases h with h | ⟨peerMd5, left, htake, h⟩
      · exact absurd h take_ne_fail
      obtain ⟨rfl, hmd5⟩ := take_eq_done.mp htake
      rw [bind_eq_fail] at h
      rcases h with h | ⟨piece, left, hread, h⟩
      · obtain ⟨hneg, rfl⟩ := readVector_eq_fail.mp h
        exact .pieceSize pieceId peerMd5 _ hid hmd5 hneg
      obtain ⟨rfl, hsize⟩ := readVector_eq_done.mp hread
      split at h
      · exact absurd h pure_ne_fail
      · rename_i hmd5'
        cases fail_eq_fail.mp h
        exact .md5Mismatch pieceId peerMd5 piece _ hid hmd5 hsize hmd5'
  | _ => exact absurd h pure_ne_fail

theorem readFrom_fail_of {byte : UInt8} {e : Halt} (hn : InWord n)
    (h : (match MsgType.ofByte? byte with
      | some t => readPayload md5 n t
      | none => fail (.panic .unknownMessageType)) l = .fail e) :
    readFrom md5 (write32htonl n ++ byte :: l) = .fail e := by
  rw [readFrom, bind_eq_fail]
  refine .inr ⟨n, byte :: l, word_eq_done.mpr ⟨hn, rfl⟩, ?_⟩
  rw [bind_eq_fail]
  exact .inr ⟨byte, l, next_eq_done.mpr rfl, h⟩

theorem readPayload_piece_fail {pieceId : Int} {peerMd5 : List UInt8} {e : Halt}
    (hid : InWord pieceId) (hmd5 : peerMd5.length = 16)
    (h : (do
      let piece ← readVector (wrap32 (n - 1 - 4 - 16))
      if peerMd5 = (md5 piece).toList then return pieceMsg pieceId piece
      else fail (.panic (.md5Mismatch pieceId)) : ByteReader ActualMsg) rest =
        .fail e) :
    readPayload md5 n .piece (write32htonl pieceId ++ (peerMd5 ++ rest)) =
      .fail e := by
  rw [readPayload, bind_eq_fail]
  refine .inr ⟨pieceId, _, word_eq_done.mpr ⟨hid, rfl⟩, ?_⟩
  rw [bind_eq_fail]
  exact .inr ⟨peerMd5, _, take_eq_done.mpr ⟨rfl, hmd5⟩, h⟩

theorem readFrom_fail_of_rejects {e : Halt} (hn : InWord n)
    (h : Rejects md5 n rest e) :
    readFrom md5 (write32htonl n ++ rest) = .fail e := by
  cases h with
  | unknownType type rest h =>
      apply readFrom_fail_of hn
      rw [h]
      rfl
  | bitfieldSize rest h =>
      apply readFrom_fail_of hn
      rw [MsgType.ofByte?_toByte]
      change readPayload md5 n .bitfield rest = _
      rw [readPayload, bind_eq_fail]
      exact .inl (readVector_eq_fail.mpr ⟨h, rfl⟩)
  | pieceSize pieceId peerMd5 rest hid hmd5 h =>
      apply readFrom_fail_of hn
      rw [MsgType.ofByte?_toByte]
      apply readPayload_piece_fail hid hmd5
      rw [bind_eq_fail]
      exact .inl (readVector_eq_fail.mpr ⟨h, rfl⟩)
  | md5Mismatch pieceId peerMd5 piece rest hid hmd5 hsize h =>
      apply readFrom_fail_of hn
      rw [MsgType.ofByte?_toByte]
      apply readPayload_piece_fail hid hmd5
      rw [bind_eq_fail]
      refine .inr ⟨piece, _, readVector_eq_done.mpr ⟨rfl, hsize⟩, ?_⟩
      rw [if_neg h]
      rfl

theorem readFrom_eq_fail {e : Halt} :
    readFrom md5 l = .fail e ↔
      ∃ n rest, InWord n ∧ l = write32htonl n ++ rest ∧ Rejects md5 n rest e := by
  constructor
  · intro h
    rw [readFrom, bind_eq_fail] at h
    rcases h with h | ⟨n, left, hword, h⟩
    · exact absurd h word_ne_fail
    obtain ⟨hn, rfl⟩ := word_eq_done.mp hword
    refine ⟨n, left, hn, rfl, ?_⟩
    rw [bind_eq_fail] at h
    rcases h with h | ⟨byte, left, hnext, h⟩
    · exact absurd h next_ne_fail
    cases next_eq_done.mp hnext
    cases ht : MsgType.ofByte? byte with
    | some t =>
        rw [ht] at h
        rw [MsgType.ofByte?_eq_some.mp ht]
        exact rejects_of_readPayload h
    | none =>
        rw [ht] at h
        cases fail_eq_fail.mp h
        exact .unknownType byte _ ht
  · rintro ⟨n, rest, hn, rfl, h⟩
    exact readFrom_fail_of_rejects hn h

theorem ofRead_of_readFrom {e : Halt} (h : readFrom md5 l = .fail e) :
    e.ofRead = true := by
  obtain ⟨n, rest, -, -, h⟩ := readFrom_eq_fail.mp h
  cases h <;> rfl

theorem Accepts.length_eq (h : Accepts n m) (hroom : m.type.RoomIn n)
    (hsized : m.type.sized = true) : n = m.payloadSize + 1 := by
  have hwrap := h.sized hsized
  have hfits := h.fits
  cases m with
  | bitfieldMsg snapshot =>
      simp only [Fits, payloadSize, type, MsgType.RoomIn] at hfits hwrap hroom ⊢
      exact eq_of_wrap32 (by omega) (by omega) (by omega) hwrap
  | pieceMsg pieceId piece =>
      simp only [Fits, payloadSize, type, MsgType.RoomIn] at hfits hwrap hroom ⊢
      exact eq_of_wrap32 (by omega) (by omega) (by omega) hwrap
  | _ => cases hsized

theorem readFrom_short (h : l.length < 5) : readFrom md5 l = .more := by
  cases hread : readFrom md5 l with
  | more => rfl
  | done m rest =>
      obtain ⟨n, -, rfl⟩ := readFrom_eq_done.mp hread
      rw [frame, List.length_append, List.length_append, List.length_append,
        write32htonl, length_word32, List.length_singleton] at h
      omega
  | fail e =>
      obtain ⟨n, rest, -, rfl, hrejects⟩ := readFrom_eq_fail.mp hread
      rw [List.length_append, write32htonl, length_word32] at h
      cases hrejects
      all_goals
        rw [List.length_cons] at h
        omega

section Typed

variable {t : MsgType} {body : List UInt8}

theorem readFrom_typed_eq_done (hn : InWord n) (hroom : t.RoomIn n) :
    readFrom md5 (write32htonl n ++ t.toByte :: body) = .done m rest ↔
      Framed md5 n t body m rest := by
  rw [readFrom_eq_done]
  constructor
  · rintro ⟨n', haccepts, heq⟩
    rw [frame, List.append_assoc] at heq
    obtain ⟨rfl, hbody⟩ := write32htonl_append_inj hn haccepts.inWord heq
    obtain ⟨hbyte, rfl⟩ := List.cons.inj hbody
    obtain rfl := MsgType.toByte_injective hbyte
    exact ⟨rfl, haccepts.fits, haccepts.length_eq hroom, rfl⟩
  · rintro ⟨rfl, fits, sized, rfl⟩
    refine ⟨n, ⟨hn, fits, fun hsized => ?_⟩, ?_⟩
    · rw [← sized hsized, wrap32_of_inWord hn]
    · rw [frame, List.append_assoc]
      rfl

theorem readFrom_typed_eq_fail {e : Halt} (hn : InWord n)
    (hroom : t.RoomIn n) :
    readFrom md5 (write32htonl n ++ t.toByte :: body) = .fail e ↔
      t = .piece ∧ ∃ pieceId, Mismatched md5 n body pieceId ∧
        e = .panic (.md5Mismatch pieceId) := by
  constructor
  · intro h
    obtain ⟨n', rest, hn', heq, hrejects⟩ := readFrom_eq_fail.mp h
    obtain ⟨rfl, rfl⟩ := write32htonl_append_inj hn hn' heq
    have hlow := hn.1
    have hhigh := hn.2
    generalize hcells : t.toByte :: body = cells at hrejects
    cases hrejects with
    | unknownType type rest h =>
        obtain ⟨rfl, -⟩ := List.cons.inj hcells
        rw [MsgType.ofByte?_toByte] at h
        cases h
    | bitfieldSize rest hneg =>
        obtain rfl := MsgType.toByte_injective (List.cons.inj hcells).1
        simp only [MsgType.RoomIn] at hroom
        rw [wrap32_of_inWord ⟨by omega, by omega⟩] at hneg
        omega
    | pieceSize pieceId peerMd5 rest hid hmd5 hneg =>
        obtain rfl := MsgType.toByte_injective (List.cons.inj hcells).1
        simp only [MsgType.RoomIn] at hroom
        rw [wrap32_of_inWord ⟨by omega, by omega⟩] at hneg
        omega
    | md5Mismatch pieceId peerMd5 piece rest hid hmd5 hsize hne =>
        obtain ⟨hbyte, rfl⟩ := List.cons.inj hcells
        obtain rfl := MsgType.toByte_injective hbyte
        simp only [MsgType.RoomIn] at hroom
        rw [wrap32_of_inWord ⟨by omega, by omega⟩] at hsize
        exact ⟨rfl, pieceId,
          ⟨hid, peerMd5, piece, rest, hmd5, by omega, hne, rfl⟩, rfl⟩
  · rintro ⟨rfl, pieceId, ⟨hid, peerMd5, piece, rest, hmd5, hsize, hne, rfl⟩,
      rfl⟩
    refine readFrom_fail_of_rejects hn
      (.md5Mismatch pieceId peerMd5 piece rest hid hmd5 ?_ hne)
    have hlow := hn.1
    have hhigh := hn.2
    simp only [MsgType.RoomIn] at hroom
    rw [wrap32_of_inWord ⟨by omega, by omega⟩]
    omega

theorem Framed.consumed (h : Framed md5 n t body m rest) (hn : InWord n) :
    ((write32htonl n ++ t.toByte :: body).length : Int) =
        5 + m.payloadSize + rest.length ∧
      (write32htonl n ++ t.toByte :: body = m.writeTo md5 ++ rest ↔
        n = m.payloadSize + 1) := by
  obtain ⟨rfl, -, hsized, rfl⟩ := h
  have hframe : write32htonl n ++ m.type.toByte :: (m.writePayloadTo md5 ++ rest) =
      m.frame md5 n ++ rest := by
    rw [frame, List.append_assoc]
    rfl
  have hlength : ((m.frame md5 n).length : Int) = 5 + m.payloadSize :=
    length_frame n m
  rw [hframe, List.length_append, List.append_left_inj, frame_eq_writeTo hn]
  refine ⟨by push_cast; omega, ?_⟩
  cases hs : m.type.sized with
  | true => rw [← hsized hs, wrap32_of_inWord hn]
  | false =>
      have hword : InWord (m.payloadSize + 1) := by
        cases m with
        | bitfieldMsg snapshot => cases hs
        | pieceMsg pieceId piece => cases hs
        | haveMsg pieceId | requestMsg pieceId =>
            exact (by decide : InWord (4 + 1))
        | _ => exact (by decide : InWord (0 + 1))
      rw [wrap32_of_inWord hword]

end Typed

/--
Accepted are the frames of the messages, with any length in front of a payload
of fixed size and with the right one in front of a vector, as far as the length
leaves that vector a size.
-/
theorem frames_accepted (md5 : List UInt8 → Digest) (l : List UInt8) :
    (l.length < 5 → readFrom md5 l = .more) ∧
    ∀ (n : Int) (byte : UInt8) (body : List UInt8), InWord n →
      l = write32htonl n ++ byte :: body →
      (MsgType.ofByte? byte = none →
        readFrom md5 l = .fail (.panic .unknownMessageType)) ∧
      ∀ t, MsgType.ofByte? byte = some t → t.RoomIn n →
        (∀ m rest, readFrom md5 l = .done m rest ↔
          Framed md5 n t body m rest) ∧
        (∀ m rest, readFrom md5 l = .done m rest →
          (l.length : Int) = 5 + m.payloadSize + rest.length ∧
            (l = m.writeTo md5 ++ rest ↔ n = m.payloadSize + 1)) ∧
        ∀ e, readFrom md5 l = .fail e ↔
          t = .piece ∧ ∃ pieceId, Mismatched md5 n body pieceId ∧
            e = .panic (.md5Mismatch pieceId) := by
  refine ⟨readFrom_short, ?_⟩
  rintro n byte body hn rfl
  refine ⟨fun hbyte => ?_, fun t hbyte hroom => ?_⟩
  · exact readFrom_fail_of_rejects hn (.unknownType byte body hbyte)
  · obtain rfl := MsgType.ofByte?_eq_some.mp hbyte
    exact ⟨fun m rest => readFrom_typed_eq_done hn hroom,
      fun m rest h => ((readFrom_typed_eq_done hn hroom).mp h).consumed hn,
      fun e => readFrom_typed_eq_fail hn hroom⟩

/-- Six bytes are announced behind a choke, and the reader takes one. -/
theorem frames_not_canonical :
    ¬ ∀ (md5 : List UInt8 → Digest) (l : List UInt8) (m : ActualMsg)
      (rest : List UInt8), readFrom md5 l = .done m rest →
        l = m.writeTo md5 ++ rest := by
  intro h
  have hread : readFrom (fun _ => Vector.replicate 16 0)
      (write32htonl 6 ++ ([0] ++ (write32htonl 1 ++ [1]))) =
        .done chokeMsg (write32htonl 1 ++ [1]) := rfl
  have := h _ _ _ _ hread
  revert this
  decide

end ActualMsg

theorem HandshakeMsg.ofRead_of_readFrom {l : List UInt8} {e : Halt}
    (h : HandshakeMsg.readFrom l = .fail e) : e.ofRead = true := by
  rw [HandshakeMsg.readFrom, bind_eq_fail] at h
  rcases h with h | ⟨buf, left, -, h⟩
  · exact absurd h take_ne_fail
  split at h
  · exact absurd h word_ne_fail
  · cases fail_eq_fail.mp h
    rfl

end CntPeer
