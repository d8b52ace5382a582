import CntPeer.Msg.Frames

/-!
# The length of a frame

What the reader makes of the length that the peer chose: which sizes it computes
from it, and when one of them overflows or is negative.
-/

namespace CntPeer

open CntPeer.Foundation CntPeer.Foundation.Reader

/-- The values that the size of the vector passes through, up to the size itself. -/
def MsgType.sizes (n : Int) : MsgType → List Int
  | bitfield => [n - 1]
  | piece => [n - 1, n - 1 - 4, n - 1 - 4 - 16]
  | _ => []

namespace ActualMsg

variable (md5 : List UInt8 → Digest)

/-- A frame with length `n` is refused by a panic, or the size is computed
without overflow, is not negative, and no exception escapes. -/
def LengthSafe (n : Int) (type : UInt8) : Prop :=
  match MsgType.ofByte? type with
  | none => ∀ l, readFrom md5 (write32htonl n ++ type :: l) =
      .fail (.panic .unknownMessageType)
  | some t =>
      (∀ size ∈ t.sizes n, InWord size) ∧
        (∀ size ∈ (t.sizes n).getLast?, 0 ≤ size) ∧
        ∀ l, readFrom md5 (write32htonl n ++ type :: l) ≠ .fail .crash

variable {md5} {n : Int} {l : List UInt8}

theorem size_of_crash {type : UInt8} (hn : InWord n)
    (h : readFrom md5 (write32htonl n ++ type :: l) = .fail .crash) :
    type = MsgType.bitfield.toByte ∧ wrap32 (n - 1) < 0 ∨
      type = MsgType.piece.toByte ∧ wrap32 (n - 1 - 4 - 16) < 0 := by
  obtain ⟨n', rest, hn', heq, hrejects⟩ := readFrom_eq_fail.mp h
  obtain ⟨rfl, rfl⟩ := write32htonl_append_inj hn hn' heq
  generalize hcells : type :: l = cells at hrejects
  cases hrejects with
  | bitfieldSize rest hneg =>
      cases hcells
      exact .inl ⟨rfl, hneg⟩
  | pieceSize pieceId peerMd5 rest hid hmd5 hneg =>
      cases hcells
      exact .inr ⟨rfl, hneg⟩

/--
The reader is safe from the length exactly when a bitfield is announced with at
least its type byte, and a piece with at least type byte, index and digest.
-/
theorem length_safe (md5 : List UInt8 → Digest) (type : UInt8) (hn : InWord n) :
    LengthSafe md5 n type ↔ (type = MsgType.bitfield.toByte → 1 ≤ n) ∧
      (type = MsgType.piece.toByte → 21 ≤ n) := by
  unfold LengthSafe
  cases ht : MsgType.ofByte? type with
  | none =>
      constructor
      · intro _
        constructor
        all_goals
          rintro rfl
          rw [MsgType.ofByte?_toByte] at ht
          cases ht
      · intro _ l
        apply readFrom_fail_of hn
        rw [ht]
        rfl
  | some t =>
      obtain rfl := MsgType.ofByte?_eq_some.mp ht
      constructor
      · rintro ⟨-, hsize, -⟩
        cases t with
        | bitfield =>
            have hpos := hsize (n - 1) rfl
            refine ⟨fun _ => by omega, fun h => ?_⟩
            cases h
        | piece =>
            have hpos := hsize (n - 1 - 4 - 16) rfl
            refine ⟨fun h => ?_, fun _ => by omega⟩
            cases h
        | _ =>
            constructor
            all_goals
              intro h
              cases h
      · rintro ⟨hbitfield, hpiece⟩
        have hlow := hn.1
        have hhigh := hn.2
        refine ⟨fun size hmem => ?_, fun size hmem => ?_, fun l hcrash => ?_⟩
        · cases t with
          | bitfield =>
              have hpos := hbitfield rfl
              obtain rfl := List.mem_singleton.mp hmem
              constructor <;> omega
          | piece =>
              have hpos := hpiece rfl
              simp only [MsgType.sizes, List.mem_cons, List.not_mem_nil,
                or_false] at hmem
              constructor <;> omega
          | _ => cases hmem
        · cases t with
          | bitfield =>
              have hpos := hbitfield rfl
              obtain rfl : n - 1 = size := Option.some.inj hmem
              omega
          | piece =>
              have hpos := hpiece rfl
              obtain rfl : n - 1 - 4 - 16 = size := Option.some.inj hmem
              omega
          | _ => cases hmem
        · rcases size_of_crash hn hcrash with ⟨heq, hneg⟩ | ⟨heq, hneg⟩
          · have hpos := hbitfield heq
            rw [wrap32_of_inWord ⟨by omega, by omega⟩] at hneg
            omega
          · have hpos := hpiece heq
            rw [wrap32_of_inWord ⟨by omega, by omega⟩] at hneg
            omega

theorem length_safe_piece :
    LengthSafe (fun _ => Vector.replicate 16 0) 21 MsgType.piece.toByte :=
  (length_safe _ _ (by decide)).mpr ⟨nofun, fun _ => by decide⟩

/-- A bitfield frame of length 0 asks for a vector of a negative size. -/
theorem length_not_safe :
    ¬ ∀ (md5 : List UInt8 → Digest) (n : Int) (type : UInt8), InWord n →
      LengthSafe md5 n type := by
  intro h
  have hsafe := h (fun _ => Vector.replicate 16 0) 0 MsgType.bitfield.toByte
    (by decide)
  exact hsafe.2.2 [] (readFrom_fail_of_rejects (by decide)
    (.bitfieldSize [] (by decide)))

end ActualMsg

end CntPeer
