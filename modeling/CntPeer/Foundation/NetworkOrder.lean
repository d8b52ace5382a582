import Mathlib.Algebra.Group.Nat.Defs
import Mathlib.Algebra.Ring.Int.Defs
import Mathlib.Data.List.Induction
import CntPeer.Foundation.StreamReader

/-!
# Numbers in network order

Numbers as bytes, the most significant one first, and the signed numbers that a
word of 32 bits holds.
-/

namespace CntPeer.Foundation

def bigEndian : Nat → Nat → List UInt8
  | 0, _ => []
  | w + 1, v => bigEndian w (v / 256) ++ [UInt8.ofNat v]

def ofBigEndian (l : List UInt8) : Nat :=
  l.foldl (fun v b => v * 256 + b.toNat) 0

theorem length_bigEndian (w : Nat) : ∀ v, (bigEndian w v).length = w := by
  induction w with
  | zero => exact fun _ => rfl
  | succ w ih =>
      intro v
      rw [bigEndian, List.length_append, ih]
      rfl

theorem ofBigEndian_bigEndian (w : Nat) :
    ∀ v, ofBigEndian (bigEndian w v) = v % 256 ^ w := by
  induction w with
  | zero =>
      intro v
      rw [Nat.pow_zero, Nat.mod_one]
      rfl
  | succ w ih =>
      intro v
      have hstep : ofBigEndian (bigEndian (w + 1) v) =
          ofBigEndian (bigEndian w (v / 256)) * 256 + v % 256 := by
        rw [bigEndian, ofBigEndian, List.foldl_append]
        rfl
      rw [hstep, ih, Nat.pow_succ', Nat.mod_mul]
      omega

theorem ofBigEndian_concat (l : List UInt8) (b : UInt8) :
    ofBigEndian (l ++ [b]) = ofBigEndian l * 256 + b.toNat := by
  rw [ofBigEndian, List.foldl_append]
  rfl

theorem ofBigEndian_lt (l : List UInt8) : ofBigEndian l < 256 ^ l.length := by
  induction l using List.reverseRecOn with
  | nil => exact Nat.one_pos
  | append_singleton l b ih =>
      have hb := b.toNat_lt
      rw [ofBigEndian_concat, List.length_append, List.length_singleton,
        Nat.pow_succ]
      omega

theorem bigEndian_ofBigEndian (l : List UInt8) :
    bigEndian l.length (ofBigEndian l) = l := by
  induction l using List.reverseRecOn with
  | nil => rfl
  | append_singleton l b ih =>
      have hb := b.toNat_lt
      have hhigh : (ofBigEndian l * 256 + b.toNat) / 256 = ofBigEndian l := by
        omega
      have hlow : UInt8.ofNat (ofBigEndian l * 256 + b.toNat) = b := by
        apply UInt8.toNat_inj.mp
        rw [UInt8.toNat_ofNat']
        omega
      rw [List.length_append, List.length_singleton, bigEndian,
        ofBigEndian_concat, hhigh, hlow, ih]

/-- The signed number that the low 32 bits of a number hold. -/
def wrap32 (v : Int) : Int := v.bmod (2 ^ 32)

def InWord (v : Int) : Prop := -2 ^ 31 ≤ v ∧ v < 2 ^ 31

instance (v : Int) : Decidable (InWord v) := inferInstanceAs (Decidable (_ ∧ _))

theorem inWord_natCast {n : Nat} (h : n < 2 ^ 31) : InWord n := by
  constructor
  all_goals omega

theorem wrap32_of_inWord {v : Int} (h : InWord v) : wrap32 v = v :=
  Int.bmod_eq_of_le (by simpa using h.1) (by simpa using h.2)

theorem inWord_wrap32 (v : Int) : InWord (wrap32 v) :=
  ⟨Int.le_bmod (by decide), Int.bmod_lt (by decide)⟩

theorem eq_of_wrap32 {n v : Int} (hn : 0 ≤ n) (hv : 0 ≤ v) (hlt : v < 2 ^ 32)
    (h : n = wrap32 v) : n = v := by
  rw [wrap32, Int.bmod_def] at h
  split at h
  all_goals omega

theorem wrap32_sub (v k : Int) : wrap32 (wrap32 v - k) = wrap32 (v - k) :=
  Int.bmod_sub_bmod

theorem wrap32_sub_eq_iff {n k size : Int} (hn : InWord n)
    (hsize : InWord size) : wrap32 (n - k) = size ↔ n = wrap32 (size + k) := by
  constructor
  · rintro rfl
    have h := Int.bmod_add_bmod (x := n - k) (y := k) (n := 2 ^ 32)
    rw [Int.sub_add_cancel] at h
    exact (h.trans (wrap32_of_inWord hn)).symm
  · rintro rfl
    rw [wrap32_sub, Int.add_sub_cancel, wrap32_of_inWord hsize]

def word32 (v : Int) : List UInt8 := bigEndian 4 (v % 2 ^ 32).toNat

def ofWord32 (l : List UInt8) : Int := wrap32 (ofBigEndian l)

theorem length_word32 (v : Int) : (word32 v).length = 4 :=
  length_bigEndian 4 _

theorem ofWord32_word32 (v : Int) : ofWord32 (word32 v) = wrap32 v := by
  have hmod : ((v % 2 ^ 32).toNat % 256 ^ 4 : Nat) = (v % 2 ^ 32).toNat :=
    Nat.mod_eq_of_lt (by omega)
  have hcast : (((v % 2 ^ 32).toNat : Nat) : Int) = v % ((2 ^ 32 : Nat) : Int) :=
    Int.toNat_of_nonneg (by omega)
  rw [ofWord32, word32, ofBigEndian_bigEndian, hmod, hcast]
  exact Int.emod_bmod v _

theorem word32_wrap32 (v : Int) : word32 (wrap32 v) = word32 v := by
  have h : wrap32 v % 2 ^ 32 = v % 2 ^ 32 := Int.bmod_emod
  rw [word32, h, word32]

theorem word32_ofWord32 {l : List UInt8} (h : l.length = 4) :
    word32 (ofWord32 l) = l := by
  have hlt := ofBigEndian_lt l
  have hmod : (ofBigEndian l : Int) % 2 ^ 32 = ofBigEndian l :=
    Int.emod_eq_of_lt (by omega) (by rw [h] at hlt; omega)
  rw [ofWord32, word32_wrap32, word32, hmod, Int.toNat_natCast, ← h]
  exact bigEndian_ofBigEndian l

namespace Reader

variable {ε : Type}

def word : Reader UInt8 ε Int := take 4 >>= fun l => pure (ofWord32 l)

theorem reads_word (v : Int) : Reads (word : Reader UInt8 ε Int) (word32 v)
    (wrap32 v) := by
  have h := (reads_take (ε := ε) (word32 v)).then_pure ofWord32
  rw [length_word32, ofWord32_word32] at h
  exact h

theorem stable_word : Stable (word : Reader UInt8 ε Int) :=
  (stable_take 4).then_pure ofWord32

@[simp] theorem word_eq_done {l k : List UInt8} {v : Int} :
    (word : Reader UInt8 ε Int) l = .done v k ↔ InWord v ∧ l = word32 v ++ k := by
  constructor
  · intro h
    rw [word, bind_eq_done] at h
    obtain ⟨a, left, htake, hpure⟩ := h
    obtain ⟨hv, hleft⟩ := pure_eq_done.mp hpure
    obtain ⟨hl, hlength⟩ := take_eq_done.mp htake
    rw [hl, hv, hleft, word32_ofWord32 hlength]
    exact ⟨inWord_wrap32 _, rfl⟩
  · rintro ⟨hv, rfl⟩
    rw [reads_word, wrap32_of_inWord hv]

@[simp] theorem word_ne_fail {l : List UInt8} {e : ε} :
    (word : Reader UInt8 ε Int) l ≠ .fail e := by
  intro h
  rw [word, bind_eq_fail] at h
  rcases h with h | ⟨_, _, _, h⟩
  · exact take_ne_fail h
  · exact pure_ne_fail h

end Reader

end CntPeer.Foundation
