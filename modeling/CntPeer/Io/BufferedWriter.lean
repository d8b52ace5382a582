import CntPeer.Foundation.NetworkOrder
import CntPeer.Foundation.Transition

/-!
# `BufferedWriter`

Bytes wait in a vector until they are flushed, and what does not fit goes past
it.  A single byte is always appended, and a full vector grows then, so the
capacity is not the one that the constructor reserves.
-/

namespace CntPeer

open CntPeer.Foundation

def bufferedWriterBufSz : Nat := 65536

structure BufferedWriter where
  sent : List UInt8
  buffer : List UInt8
  capacity : Nat

inductive WriterAct where
  | write (bytes : List UInt8)
  | writeByte (value : UInt8)
  | flush

def WriterAct.bytes : WriterAct → List UInt8
  | write bytes => bytes
  | writeByte value => [value]
  | flush => []

def WriterAct.InRange (a : WriterAct) : Prop := a.bytes.length < 2 ^ 31

instance (a : WriterAct) : Decidable a.InRange := Nat.decLt _ _

/--
What `IWriter::write` is handed: the size of the vector becomes an `int`.  A
negative one names no bytes; `none` ends the run there.
-/
def deliver (bytes : List UInt8) : Option (List UInt8) :=
  if wrap32 bytes.length < 0 then none
  else some (bytes.take (wrap32 bytes.length).toNat)

variable (grow : Nat → Nat)

namespace BufferedWriter

def init : BufferedWriter where
  sent := []
  buffer := []
  capacity := bufferedWriterBufSz

def flush (w : BufferedWriter) : Option BufferedWriter :=
  (deliver w.buffer).map fun out => { w with sent := w.sent ++ out, buffer := [] }

def write (w : BufferedWriter) (bytes : List UInt8) : Option BufferedWriter :=
  if w.buffer.length + bytes.length ≤ w.capacity then
    some { w with buffer := w.buffer ++ bytes }
  else
    w.flush.bind fun w =>
      (deliver bytes).map fun out => { w with sent := w.sent ++ out }

/-- `push_back`; `grow` is how a full vector grows. -/
def writeByte (w : BufferedWriter) (value : UInt8) : BufferedWriter where
  sent := w.sent
  buffer := w.buffer ++ [value]
  capacity := if w.buffer.length < w.capacity then w.capacity else grow w.capacity

def step (w : BufferedWriter) : WriterAct → Option BufferedWriter
  | .write bytes => w.write bytes
  | .writeByte value => some (w.writeByte grow value)
  | .flush => w.flush

def written (w : BufferedWriter) : List UInt8 := w.sent ++ w.buffer

end BufferedWriter

/-- How many bytes wait in a vector, and how many it can hold. -/
structure Fill where
  size : Nat
  capacity : Nat

namespace Fill

def flushes (f : Fill) : WriterAct → Bool
  | .write bytes => decide (f.capacity < f.size + bytes.length)
  | .writeByte _ => false
  | .flush => true

def after (f : Fill) (a : WriterAct) : Fill :=
  match a with
  | .write bytes =>
      { f with size := if f.flushes a then 0 else f.size + bytes.length }
  | .writeByte _ =>
      { size := f.size + 1
        capacity := if f.size < f.capacity then f.capacity else grow f.capacity }
  | .flush => { f with size := 0 }

/-- No flush finds more bytes than an `int` counts. -/
def Moderate : Fill → List WriterAct → Prop
  | _, [] => True
  | f, a :: as =>
      (f.flushes a = true → f.size < 2 ^ 31) ∧ Moderate (f.after grow a) as

end Fill

def BufferedWriter.fill (w : BufferedWriter) : Fill where
  size := w.buffer.length
  capacity := w.capacity

theorem deliver_eq_some {bytes : List UInt8} (h : bytes.length < 2 ^ 31) :
    deliver bytes = some bytes := by
  rw [deliver, wrap32_of_inWord (inWord_natCast h), if_neg (by omega),
    Int.toNat_natCast, List.take_length]

theorem length_of_deliver {bytes out : List UInt8} (h : deliver bytes = some out) :
    out.length ≤ bytes.length ∧
      (out.length = bytes.length → bytes.length < 2 ^ 31) := by
  unfold deliver at h
  split at h
  · cases h
  · have hword := (inWord_wrap32 bytes.length).2
    rw [Option.some.injEq] at h
    rw [← h, List.length_take]
    omega

namespace BufferedWriter

variable {grow} {w w' : BufferedWriter} {a : WriterAct} {as : List WriterAct}

theorem flush_eq_some (h : w.buffer.length < 2 ^ 31) :
    w.flush = some { w with sent := w.sent ++ w.buffer, buffer := [] } := by
  rw [flush, deliver_eq_some h, Option.map_some]

theorem step_of_moderate (ha : a.InRange)
    (h : w.fill.flushes a = true → w.fill.size < 2 ^ 31) :
    ∃ w', w.step grow a = some w' ∧ w'.written = w.written ++ a.bytes ∧
      w'.fill = w.fill.after grow a := by
  cases a with
  | write bytes =>
      by_cases hfits : w.buffer.length + bytes.length ≤ w.capacity
      · refine ⟨{ w with buffer := w.buffer ++ bytes }, if_pos hfits, ?_, ?_⟩
        · exact (List.append_assoc _ _ _).symm
        · simp [fill, Fill.after, Fill.flushes, Nat.not_lt.mpr hfits]
      · have hflush : w.fill.flushes (.write bytes) = true :=
          decide_eq_true (Nat.lt_of_not_le hfits)
        refine ⟨{ w with sent := w.sent ++ w.buffer ++ bytes, buffer := [] },
          ?_, ?_, ?_⟩
        · rw [step, write, if_neg hfits, flush_eq_some (h hflush),
            Option.bind_some, deliver_eq_some (show bytes.length < 2 ^ 31 from ha), Option.map_some]
        · exact List.append_nil _
        · simp [fill, Fill.after, Fill.flushes, Nat.lt_of_not_le hfits]
  | writeByte value =>
      exact ⟨w.writeByte grow value, rfl, (List.append_assoc _ _ _).symm,
        congrArg (Fill.mk · _) List.length_append⟩
  | flush =>
      refine ⟨{ w with sent := w.sent ++ w.buffer, buffer := [] },
        flush_eq_some (h rfl), ?_, rfl⟩
      rfl

theorem step_loses (h : w.step grow a = some w') :
    w'.fill = w.fill.after grow a ∧
      w'.written.length ≤ w.written.length + a.bytes.length ∧
      (w'.written.length = w.written.length + a.bytes.length →
        w.fill.flushes a = true → w.fill.size < 2 ^ 31) := by
  cases a with
  | write bytes =>
      rw [step, write] at h
      split at h
      · rename_i hfits
        cases h
        refine ⟨by simp [fill, Fill.after, Fill.flushes, Nat.not_lt.mpr hfits],
          ?_, fun _ hflush => ?_⟩
        · simp [written, WriterAct.bytes, Nat.add_assoc]
        · exact absurd hfits (Nat.not_le.mpr (of_decide_eq_true hflush))
      · rename_i hfits
        obtain ⟨w₁, hflush, h⟩ := Option.bind_eq_some_iff.mp h
        obtain ⟨out, hout, rfl⟩ := Option.map_eq_some_iff.mp hflush
        obtain ⟨out', hout', rfl⟩ := Option.map_eq_some_iff.mp h
        have hlength := length_of_deliver hout
        have hlength' := length_of_deliver hout'
        refine ⟨by simp [fill, Fill.after, Fill.flushes, Nat.lt_of_not_le hfits],
          ?_⟩
        simp only [written, WriterAct.bytes, fill, List.length_append,
          List.length_nil]
        omega
  | writeByte value =>
      cases h
      refine ⟨congrArg (Fill.mk · _) List.length_append, ?_, fun _ hflush => ?_⟩
      · simp [written, writeByte, WriterAct.bytes, Nat.add_assoc]
      · cases hflush
  | flush =>
      rw [step, flush, Option.map_eq_some_iff] at h
      obtain ⟨out, hout, rfl⟩ := h
      have hlength := length_of_deliver hout
      refine ⟨rfl, ?_⟩
      simp only [written, WriterAct.bytes, fill, List.length_append,
        List.length_nil]
      omega

theorem run_of_moderate (has : ∀ a ∈ as, a.InRange)
    (h : w.fill.Moderate grow as) :
    ∃ w', run (step grow) w as = some w' ∧
      w'.written = w.written ++ as.flatMap WriterAct.bytes := by
  induction as generalizing w with
  | nil => exact ⟨w, rfl, (List.append_nil _).symm⟩
  | cons a as ih =>
      obtain ⟨w₁, hstep, hwritten, hfill⟩ :=
        step_of_moderate (has a List.mem_cons_self) h.1
      obtain ⟨w', hrun, hw'⟩ := ih (fun b hb => has b (List.mem_cons_of_mem _ hb))
        (hfill ▸ h.2)
      refine ⟨w', ?_, ?_⟩
      · rw [run, hstep, Option.bind_some, hrun]
      · rw [hw', hwritten, List.flatMap_cons, List.append_assoc]

theorem moderate_of_run (h : run (step grow) w as = some w') :
    w'.written.length ≤
        w.written.length + (as.flatMap WriterAct.bytes).length ∧
      (w'.written.length =
          w.written.length + (as.flatMap WriterAct.bytes).length →
        w.fill.Moderate grow as) := by
  induction as generalizing w with
  | nil =>
      cases h
      exact ⟨le_rfl, fun _ => trivial⟩
  | cons a as ih =>
      obtain ⟨w₁, hstep, hrun⟩ := Option.bind_eq_some_iff.mp h
      obtain ⟨hfill, hle, hflush⟩ := step_loses hstep
      obtain ⟨hle', hmoderate⟩ := ih hrun
      rw [List.flatMap_cons, List.length_append]
      refine ⟨by omega, fun heq => ⟨hflush (by omega), ?_⟩⟩
      rw [← hfill]
      exact hmoderate (by omega)

theorem buffer_of_run_flush (h : run (step grow) w (as ++ [.flush]) = some w') :
    w'.buffer = [] := by
  rw [run_append] at h
  obtain ⟨w₁, -, hrun⟩ := Option.bind_eq_some_iff.mp h
  obtain ⟨w₂, hflush, hnil⟩ := Option.bind_eq_some_iff.mp hrun
  rw [step, flush, Option.map_eq_some_iff] at hflush
  obtain ⟨out, -, rfl⟩ := hflush
  cases hnil
  rfl

end BufferedWriter

namespace Fill

variable {grow} {f : Fill} {as bs : List WriterAct}

theorem after_write {bytes : List UInt8}
    (h : f.size + bytes.length ≤ f.capacity) :
    f.after grow (.write bytes) = ⟨f.size + bytes.length, f.capacity⟩ := by
  have hflushes : f.flushes (.write bytes) = false :=
    decide_eq_false (Nat.not_lt.mpr h)
  rw [after, hflushes]
  rfl

theorem moderate_append :
    f.Moderate grow (as ++ bs) ↔
      f.Moderate grow as ∧ (as.foldl (after grow) f).Moderate grow bs := by
  induction as generalizing f with
  | nil => exact ⟨fun h => ⟨trivial, h⟩, And.right⟩
  | cons a as ih =>
      rw [List.cons_append, Moderate, ih, Moderate, and_assoc]
      rfl

theorem moderate_of_length
    (h : f.size + (as.flatMap WriterAct.bytes).length < 2 ^ 31) :
    f.Moderate grow as := by
  induction as generalizing f with
  | nil => trivial
  | cons a as ih =>
      rw [List.flatMap_cons, List.length_append] at h
      refine ⟨fun _ => by omega, ih ?_⟩
      have hafter : (f.after grow a).size ≤ f.size + a.bytes.length := by
        cases a with
        | write bytes =>
            change (if _ then _ else _) ≤ _
            split
            · exact Nat.zero_le _
            · exact le_rfl
        | writeByte value => exact le_rfl
        | flush => exact Nat.zero_le _
      omega

end Fill

def hostWord (value : UInt32) : List UInt8 := (bigEndian 4 value.toNat).reverse

def htonl (value : UInt32) : UInt32 :=
  UInt32.ofNat (ofBigEndian (hostWord value))

theorem length_hostWord (value : UInt32) : (hostWord value).length = 4 := by
  rw [hostWord, List.length_reverse, length_bigEndian]

theorem hostWord_htonl (value : UInt32) :
    hostWord (htonl value) = bigEndian 4 value.toNat := by
  have hlt := ofBigEndian_lt (hostWord value)
  have hstored := bigEndian_ofBigEndian (hostWord value)
  rw [length_hostWord] at hlt hstored
  have hword : (htonl value).toNat = ofBigEndian (hostWord value) := by
    rw [htonl, UInt32.toNat_ofNat']
    exact Nat.mod_eq_of_lt hlt
  rw [hostWord, hword, hstored, hostWord, List.reverse_reverse]

inductive WriterCall where
  | write (bytes : List UInt8)
  | writeByte (value : UInt8)
  | write32 (value : UInt32)
  | flush

namespace WriterCall

def act : WriterCall → WriterAct
  | write bytes => .write bytes
  | writeByte value => .writeByte value
  | write32 value => .write (hostWord value)
  | flush => .flush

def bytes (c : WriterCall) : List UInt8 := c.act.bytes

def InRange (c : WriterCall) : Prop := c.act.InRange

instance (c : WriterCall) : Decidable c.InRange :=
  inferInstanceAs (Decidable c.act.InRange)

end WriterCall

namespace BufferedWriter

/-- After each call nothing is missing, repeated or out of order, and the
buffer is empty after `flush`. -/
def Delivers (calls : List WriterCall) : Prop :=
  ∀ before after, calls = before ++ after →
    ∃ w, run (step grow) init (before.map WriterCall.act) = some w ∧
      w.sent ++ w.buffer = before.flatMap WriterCall.bytes ∧
      (before.getLast? = some .flush → w.buffer = [])

variable {grow} {calls before after : List WriterCall} {w : BufferedWriter}

theorem flatMap_act (calls : List WriterCall) :
    (calls.map WriterCall.act).flatMap WriterAct.bytes =
      calls.flatMap WriterCall.bytes := by
  induction calls with
  | nil => rfl
  | cons c calls ih =>
      rw [List.map_cons, List.flatMap_cons, List.flatMap_cons, ih]
      rfl

theorem buffer_of_last_flush
    (h : run (step grow) init (before.map WriterCall.act) = some w)
    (hlast : before.getLast? = some .flush) : w.buffer = [] := by
  obtain ⟨earlier, rfl⟩ := List.getLast?_eq_some_iff.mp hlast
  rw [List.map_append] at h
  exact buffer_of_run_flush h

theorem moderate_of_delivers (h : Delivers grow calls) :
    init.fill.Moderate grow (calls.map WriterCall.act) := by
  obtain ⟨w, hrun, hwritten, -⟩ := h calls [] (List.append_nil _).symm
  apply (moderate_of_run hrun).2
  rw [written, hwritten, flatMap_act]
  exact (Nat.zero_add _).symm

/-- The writer delivers what is written when no call empties a buffer of more
bytes than an `int` counts. -/
theorem delivers_iff (grow : Nat → Nat) (calls : List WriterCall)
    (hcalls : ∀ c ∈ calls, c.InRange) :
    Delivers grow calls ↔
      init.fill.Moderate grow (calls.map WriterCall.act) := by
  constructor
  · exact moderate_of_delivers
  · rintro hmoderate before after rfl
    rw [List.map_append] at hmoderate
    have hrange : ∀ a ∈ before.map WriterCall.act, a.InRange := by
      intro a ha
      obtain ⟨c, hc, rfl⟩ := List.mem_map.mp ha
      exact hcalls c (List.mem_append_left _ hc)
    obtain ⟨w, hrun, hw⟩ :=
      run_of_moderate hrange (Fill.moderate_append.mp hmoderate).1
    rw [flatMap_act] at hw
    exact ⟨w, hrun, hw, buffer_of_last_flush hrun⟩

def mixedCalls : List WriterCall :=
  [.write [1, 2], .writeByte 3, .write (List.replicate 70000 0),
    .write32 5, .flush]

theorem delivers_mixedCalls : Delivers (2 * ·) mixedCalls := by
  refine (delivers_iff (2 * ·) mixedCalls ?_).mpr
    (Fill.moderate_of_length ?_)
  · intro c hc
    simp only [mixedCalls, List.mem_cons, List.not_mem_nil, or_false] at hc
    rcases hc with rfl | rfl | rfl | rfl | rfl
    · decide
    · decide
    · simp only [WriterCall.InRange, WriterCall.act, WriterAct.InRange,
        WriterAct.bytes, List.length_replicate]
      decide
    · decide
    · decide
  · simp only [mixedCalls, List.map_cons, List.map_nil, WriterCall.act,
      List.flatMap_cons, List.flatMap_nil, WriterAct.bytes, List.length_append,
      List.length_replicate, length_hostWord]
    decide

theorem size_of_bytes (n : Nat) (f : Fill) :
    ((List.replicate n (.writeByte 0)).foldl (Fill.after grow) f).size =
      f.size + n := by
  induction n generalizing f with
  | zero => rfl
  | succ n ih =>
      rw [List.replicate_succ, List.foldl_cons, ih]
      exact Nat.add_right_comm _ _ _

def byteByByte : List WriterCall :=
  List.replicate (2 ^ 31) (.writeByte 0) ++ [.flush]

theorem byteByByte_lost :
    (∀ c ∈ byteByByte, c.InRange) ∧ ¬ Delivers (2 * ·) byteByByte := by
  have hcalls : ∀ c ∈ byteByByte, c.InRange := by
    intro c hc
    rcases List.mem_append.mp hc with hc | hc
    · rw [List.eq_of_mem_replicate hc]
      decide
    · rw [List.mem_singleton.mp hc]
      decide
  refine ⟨hcalls, fun h => ?_⟩
  have hmoderate := moderate_of_delivers h
  rw [byteByByte, List.map_append, List.map_replicate] at hmoderate
  have hflush := (Fill.moderate_append.mp hmoderate).2.1 rfl
  rw [WriterCall.act, size_of_bytes] at hflush
  exact absurd hflush (Nat.not_lt.mpr (Nat.le_add_left _ _))

end BufferedWriter

end CntPeer
