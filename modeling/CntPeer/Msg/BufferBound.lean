import CntPeer.Foundation.History
import CntPeer.Msg.Transport

/-!
# The bound on a writer's buffer

The comment on `buffer` says that its capacity does not change.  `write(buf, n)`
tests the capacity and `write(value)` does not, so the comment holds as long as
no single byte comes when the buffer is exactly full.
-/

namespace CntPeer.Buffered

open CntPeer.Foundation

inductive WriterUse where
  | call (c : WriterCall)
  | writeTo (m : ActualMsg)

namespace WriterUse

def acts (md5 : List UInt8 → Digest) : WriterUse → List WriterAct
  | call c => [c.act]
  | writeTo m => ActualMsg.writeTo md5 m

def InRange : WriterUse → Prop
  | call c => c.InRange
  | writeTo m => Sendable m

end WriterUse

def level (n : Nat) : WriterAct → Nat
  | .write bytes =>
      if n + bytes.length ≤ bufferedWriterBufSz then n + bytes.length else 0
  | .writeByte _ => n + 1
  | .flush => 0

/-- No single byte comes when the buffer is exactly full. -/
def SpareByte (acts : List WriterAct) : Prop :=
  ∀ before value after, acts = before ++ .writeByte value :: after →
    before.foldl level 0 ≠ bufferedWriterBufSz

/-- At every moment the capacity is the reserved one and the buffer holds no
more. -/
def Reserved (grow : Nat → Nat) (acts : List WriterAct) : Prop :=
  ∀ before after, acts = before ++ after →
    ∃ w, run (BufferedWriter.step grow) BufferedWriter.init before = some w ∧
      w.capacity = bufferedWriterBufSz ∧
      w.buffer.length ≤ bufferedWriterBufSz

/-- An array that does not fit the reserved buffer goes to the sink, behind what
waits there. -/
def Bypasses (grow : Nat → Nat) (acts : List WriterAct) : Prop :=
  ∀ before bytes after w w', acts = before ++ .write bytes :: after →
    run (BufferedWriter.step grow) BufferedWriter.init before = some w →
    w.step grow (.write bytes) = some w' →
    bufferedWriterBufSz < w.buffer.length + bytes.length →
      w'.buffer = [] ∧ w'.sent = w.sent ++ w.buffer ++ bytes

structure Holds (w : BufferedWriter) (n : Nat) : Prop where
  capacity : w.capacity = bufferedWriterBufSz
  size : w.buffer.length = n
  bounded : n ≤ bufferedWriterBufSz

variable {md5 : List UInt8 → Digest} {grow : Nat → Nat} {w w' : BufferedWriter}
  {n : Nat} {a : WriterAct} {acts : List WriterAct} {uses : List WriterUse}

theorem bufSz_lt : bufferedWriterBufSz < 2 ^ 31 := by decide

theorem holds_init : Holds BufferedWriter.init 0 := ⟨rfl, rfl, by decide⟩

theorem Holds.flush_eq (h : Holds w n) :
    w.flush = some { w with sent := w.sent ++ w.buffer, buffer := [] } :=
  BufferedWriter.flush_eq_some
    (by rw [h.size]; exact h.bounded.trans_lt bufSz_lt)

theorem Holds.write_long (h : Holds w n) {bytes : List UInt8}
    (hrange : bytes.length < 2 ^ 31)
    (hlong : bufferedWriterBufSz < n + bytes.length) :
    w.step grow (.write bytes) =
      some { w with sent := w.sent ++ w.buffer ++ bytes, buffer := [] } := by
  rw [BufferedWriter.step, BufferedWriter.write, if_neg, h.flush_eq,
    Option.bind_some, deliver_eq_some hrange, Option.map_some]
  rw [h.size, h.capacity]
  exact Nat.not_le.mpr hlong

theorem Holds.step (h : Holds w n) (grow : Nat → Nat) (ha : a.InRange)
    (hspare : ∀ value, a = .writeByte value → n ≠ bufferedWriterBufSz) :
    ∃ w', w.step grow a = some w' ∧ Holds w' (level n a) := by
  cases a with
  | write bytes =>
      by_cases hfits : n + bytes.length ≤ bufferedWriterBufSz
      · refine ⟨{ w with buffer := w.buffer ++ bytes }, ?_, ?_⟩
        · rw [BufferedWriter.step, BufferedWriter.write, if_pos]
          rw [h.size, h.capacity]
          exact hfits
        · rw [level, if_pos hfits]
          exact ⟨h.capacity, by rw [List.length_append, h.size], hfits⟩
      · refine ⟨_, h.write_long ha (Nat.lt_of_not_le hfits), ?_⟩
        rw [level, if_neg hfits]
        exact ⟨h.capacity, rfl, Nat.zero_le _⟩
  | writeByte value =>
      have hlt : n < bufferedWriterBufSz :=
        lt_of_le_of_ne h.bounded (hspare value rfl)
      refine ⟨w.writeByte grow value, rfl, ?_, ?_, hlt⟩
      · rw [BufferedWriter.writeByte, if_pos]
        · exact h.capacity
        · rw [h.size, h.capacity]
          exact hlt
      · rw [BufferedWriter.writeByte, List.length_append, h.size]
        rfl
  | flush => exact ⟨_, h.flush_eq, h.capacity, rfl, Nat.zero_le _⟩

theorem spareByte_nil : SpareByte [] := by
  intro before value after h
  cases before
  all_goals cases h

theorem SpareByte.left {as bs : List WriterAct} (h : SpareByte (as ++ bs)) :
    SpareByte as := by
  rintro before value after rfl
  exact h before value (after ++ bs) (by simp)

theorem Reserved.left {as bs : List WriterAct} (h : Reserved grow (as ++ bs)) :
    Reserved grow as := by
  rintro before after rfl
  exact h before (after ++ bs) (List.append_assoc _ _ _)

theorem spareByte_concat :
    SpareByte (acts ++ [a]) ↔ SpareByte acts ∧
      ∀ value, a = .writeByte value →
        acts.foldl level 0 ≠ bufferedWriterBufSz := by
  constructor
  · intro h
    refine ⟨h.left, ?_⟩
    rintro value rfl
    exact h acts value [] rfl
  · rintro ⟨hleft, hlast⟩ before value after hacts
    rcases concat_eq_split.mp hacts with ⟨rfl, ha, -⟩ | ⟨rest, -, rfl⟩
    · exact hlast value ha
    · exact hleft before value rest rfl

theorem run_concat (h : run (BufferedWriter.step grow) BufferedWriter.init acts =
    some w) :
    run (BufferedWriter.step grow) BufferedWriter.init (acts ++ [a]) =
      w.step grow a := by
  rw [run_append, h, Option.bind_some, run]
  exact Option.bind_fun_some _

theorem holds_of_spareByte (grow : Nat → Nat)
    (hrange : ∀ a ∈ acts, a.InRange) (h : SpareByte acts) :
    ∃ w, run (BufferedWriter.step grow) BufferedWriter.init acts = some w ∧
      Holds w (acts.foldl level 0) := by
  induction acts using List.reverseRecOn with
  | nil => exact ⟨_, rfl, holds_init⟩
  | append_singleton acts a ih =>
      obtain ⟨hleft, hlast⟩ := spareByte_concat.mp h
      obtain ⟨w, hrun, hw⟩ :=
        ih (fun b hb => hrange b (List.mem_append_left _ hb)) hleft
      obtain ⟨w', hstep, hw'⟩ :=
        hw.step grow (hrange a (by simp)) hlast
      refine ⟨w', (run_concat hrun).trans hstep, ?_⟩
      rw [List.foldl_append]
      exact hw'

theorem spareByte_of_reserved (hgrow : ∀ c, c < grow c)
    (hrange : ∀ a ∈ acts, a.InRange) (h : Reserved grow acts) :
    SpareByte acts := by
  induction acts using List.reverseRecOn with
  | nil => exact spareByte_nil
  | append_singleton acts a ih =>
      have hrange' : ∀ b ∈ acts, b.InRange := fun b hb =>
        hrange b (List.mem_append_left _ hb)
      have hleft : SpareByte acts := ih hrange' h.left
      refine spareByte_concat.mpr ⟨hleft, ?_⟩
      rintro value rfl hfull
      obtain ⟨w, hrun, hw⟩ := holds_of_spareByte grow hrange' hleft
      obtain ⟨w', hrun', hcapacity, -⟩ :=
        h (acts ++ [.writeByte value]) [] (List.append_nil _).symm
      have hstep := (run_concat hrun).symm.trans hrun'
      cases hstep
      rw [BufferedWriter.writeByte, if_neg, hw.capacity] at hcapacity
      · exact absurd hcapacity (hgrow _).ne'
      · rw [hw.size, hw.capacity, hfull]
        exact lt_irrefl _

theorem reserved_of_spareByte (hrange : ∀ a ∈ acts, a.InRange)
    (h : SpareByte acts) : Reserved grow acts := by
  rintro before after rfl
  obtain ⟨w, hrun, hw⟩ := holds_of_spareByte grow
    (fun a ha => hrange a (List.mem_append_left _ ha)) h.left
  refine ⟨w, hrun, hw.capacity, ?_⟩
  rw [hw.size]
  exact hw.bounded

theorem bypasses_of_spareByte (hrange : ∀ a ∈ acts, a.InRange)
    (h : SpareByte acts) : Bypasses grow acts := by
  rintro before bytes after w w' rfl hrun hstep hlong
  obtain ⟨w₁, hrun₁, hw⟩ := holds_of_spareByte grow
    (fun a ha => hrange a (List.mem_append_left _ ha)) h.left
  cases hrun.symm.trans hrun₁
  rw [hw.size] at hlong
  have hbytes : (WriterAct.write bytes).InRange := hrange _ (by simp)
  cases (hw.write_long hbytes hlong).symm.trans hstep
  exact ⟨rfl, rfl⟩

theorem inRange_acts (huses : ∀ u ∈ uses, u.InRange) :
    ∀ a ∈ uses.flatMap (WriterUse.acts md5), a.InRange := by
  intro a ha
  obtain ⟨u, hu, ha⟩ := List.mem_flatMap.mp ha
  cases u with
  | call c =>
      rw [List.mem_singleton.mp ha]
      exact huses _ hu
  | writeTo m => exact inRange_writeTo (huses _ hu) ha

/-- The comment on the buffer holds as long as no single byte finds the buffer
full. -/
theorem capacity_kept_iff (md5 : List UInt8 → Digest) (grow : Nat → Nat)
    (hgrow : ∀ c, c < grow c) (uses : List WriterUse)
    (huses : ∀ u ∈ uses, u.InRange) :
    Reserved grow (uses.flatMap (WriterUse.acts md5)) ∧
        Bypasses grow (uses.flatMap (WriterUse.acts md5)) ↔
      SpareByte (uses.flatMap (WriterUse.acts md5)) := by
  have hrange : ∀ a ∈ uses.flatMap (WriterUse.acts md5), a.InRange :=
    inRange_acts huses
  constructor
  · rintro ⟨hreserved, -⟩
    exact spareByte_of_reserved hgrow hrange hreserved
  · intro h
    exact ⟨reserved_of_spareByte hrange h, bypasses_of_spareByte hrange h⟩

theorem level_le (a : WriterAct) : level n a ≤ n + a.bytes.length := by
  cases a with
  | write bytes =>
      rw [level]
      split
      · exact le_rfl
      · exact Nat.zero_le _
  | writeByte value => exact le_rfl
  | flush => exact Nat.zero_le _

theorem foldl_level_le (acts : List WriterAct) :
    acts.foldl level n ≤ n + (acts.flatMap WriterAct.bytes).length := by
  induction acts generalizing n with
  | nil => exact le_rfl
  | cons a acts ih =>
      have hstep := level_le (n := n) a
      have hrest := ih (n := level n a)
      rw [List.foldl_cons, List.flatMap_cons, List.length_append]
      omega

theorem spareByte_of_length
    (h : (acts.flatMap WriterAct.bytes).length ≤ bufferedWriterBufSz) :
    SpareByte acts := by
  rintro before value after rfl
  have hlevel := foldl_level_le (n := 0) before
  rw [List.flatMap_append, List.flatMap_cons, List.length_append,
    List.length_append] at h
  change _ + ([value].length + _) ≤ _ at h
  rw [List.length_singleton] at h
  omega

def doubled (c : Nat) : Nat := c + max c 1

theorem lt_doubled (c : Nat) : c < doubled c := by
  unfold doubled
  omega

def roomyUses : List WriterUse :=
  [.writeTo (.bitfieldMsg [.owned, .absent]), .call (.write32 5),
    .call (.writeByte 7), .call .flush]

theorem capacity_kept_roomyUses :
    Reserved doubled
        (roomyUses.flatMap (WriterUse.acts fun _ => Vector.replicate 16 0)) ∧
      Bypasses doubled
        (roomyUses.flatMap (WriterUse.acts fun _ => Vector.replicate 16 0)) := by
  refine (capacity_kept_iff _ doubled lt_doubled roomyUses ?_).mpr
    (spareByte_of_length (by decide))
  intro u hu
  simp only [roomyUses, List.mem_cons, List.not_mem_nil, or_false] at hu
  rcases hu with rfl | rfl | rfl | rfl
  · exact sendable_bitfield (by decide)
  · exact inRange_word 5
  · exact Nat.one_lt_two_pow (by decide)
  · exact Nat.two_pow_pos 31

def fullUses : List WriterUse :=
  [.call (.write (List.replicate 65532 0)), .writeTo .chokeMsg]

theorem level_fullUses :
    [WriterAct.write (List.replicate 65532 0), .write (word32 1)].foldl level 0 =
      bufferedWriterBufSz := by
  have hfirst : level 0 (.write (List.replicate 65532 0)) = 65532 := by
    rw [level, List.length_replicate]
    exact if_pos (by decide)
  rw [List.foldl_cons, hfirst, List.foldl_cons, List.foldl_nil, level,
    length_word32]
  exact if_pos (by decide)

theorem capacity_changes :
    (∀ u ∈ fullUses, u.InRange) ∧
      ¬ Reserved doubled
        (fullUses.flatMap (WriterUse.acts fun _ => Vector.replicate 16 0)) := by
  have huses : ∀ u ∈ fullUses, u.InRange := by
    intro u hu
    rcases List.mem_pair.mp hu with rfl | rfl
    · change (List.replicate 65532 (0 : UInt8)).length < 2 ^ 31
      rw [List.length_replicate]
      decide
    · exact ⟨trivial, by decide⟩
  refine ⟨huses, fun h => ?_⟩
  have hspare := spareByte_of_reserved lt_doubled (inRange_acts huses) h
  exact hspare _ _ [] rfl level_fullUses

end CntPeer.Buffered
