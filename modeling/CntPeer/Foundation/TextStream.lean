import Mathlib.Data.List.TakeWhile
import CntPeer.Foundation.NetworkOrder

/-!
# Formatted input

Words and decimal numbers taken from the front of a text, as formatted input
streams take them: white space in front is skipped, a word ends at white space,
and a number ends where its digits end.
-/

namespace CntPeer.Foundation

abbrev Text := List Char

def isSpace (c : Char) : Bool :=
  c = ' ' || c = '\t' || c = '\n' || c = '\x0b' || c = '\x0c' || c = '\r'

def skipSpace (l : Text) : Text := l.dropWhile isSpace

/-- One extraction; `none` sets the fail bit. -/
abbrev Extract (α : Type) := Text → Option (α × Text)

def extractWord : Extract Text := fun l =>
  match skipSpace l with
  | [] => none
  | c :: rest => some (c :: rest.takeWhile fun c => !isSpace c,
      rest.dropWhile fun c => !isSpace c)

def digitsValue (l : Text) : Nat :=
  l.foldl (fun v c => v * 10 + (c.toNat - '0'.toNat)) 0

def extractDigits : Extract Nat := fun l =>
  let digits := l.takeWhile Char.isDigit
  if digits = [] then none
  else some (digitsValue digits, l.dropWhile Char.isDigit)

def extractNumber : Extract Int := fun l =>
  match l with
  | '-' :: rest => (extractDigits rest).map fun p => (-(p.1 : Int), p.2)
  | '+' :: rest => (extractDigits rest).map fun p => ((p.1 : Int), p.2)
  | l => (extractDigits l).map fun p => ((p.1 : Int), p.2)

/-- `>>` into an `int`: a number that does not fit sets the fail bit. -/
def extractInt : Extract Int := fun l =>
  (extractNumber (skipSpace l)).bind fun p =>
    if InWord p.1 then some p else none

/-- `std::stoi`: what stands behind the number is ignored; `none` is an
exception. -/
def stoi (l : Text) : Option Int := (extractInt l).map Prod.fst

def extractUpTo {α : Type} (f : Extract α) : Nat → Text → List α
  | 0, _ => []
  | fuel + 1, l =>
      match f l with
      | none => []
      | some (a, rest) => a :: extractUpTo f fuel rest

def extractAll {α : Type} (f : Extract α) (l : Text) : List α :=
  extractUpTo f (l.length + 1) l

def Consumes {α : Type} (f : Extract α) : Prop :=
  ∀ l a rest, f l = some (a, rest) → rest.length < l.length

variable {α β : Type} {f : Extract α} {l : Text}

theorem length_skipSpace_le (l : Text) : (skipSpace l).length ≤ l.length :=
  (List.dropWhile_suffix isSpace).length_le

theorem consumes_extractWord : Consumes extractWord := by
  intro l a rest h
  unfold extractWord at h
  split at h
  · contradiction
  · rename_i c tail hskip
    cases h
    have hle := length_skipSpace_le l
    have htail := (List.dropWhile_suffix (l := tail) fun c => !isSpace c).length_le
    rw [hskip, List.length_cons] at hle
    omega

theorem consumes_extractDigits : Consumes extractDigits := by
  intro l a rest h
  unfold extractDigits at h
  dsimp only at h
  split at h
  · contradiction
  · rename_i hne
    cases h
    have happ := congrArg List.length
      (List.takeWhile_append_dropWhile (p := Char.isDigit) (l := l))
    rw [List.length_append] at happ
    have hpos := List.length_pos_iff.mpr hne
    omega

theorem consumes_extractNumber : Consumes extractNumber := by
  intro l a rest h
  have hdigits : ∀ {k : Text} {g : Nat × Text → Int × Text}, (∀ p, (g p).2 = p.2) →
      (extractDigits k).map g = some (a, rest) → rest.length < k.length := by
    intro k g hg hk
    obtain ⟨p, hp, heq⟩ := Option.map_eq_some_iff.mp hk
    have hlt := consumes_extractDigits k p.1 p.2 hp
    rwa [← hg p, heq] at hlt
  unfold extractNumber at h
  split at h
  · exact (hdigits (fun _ => rfl) h).trans (Nat.lt_succ_self _)
  · exact (hdigits (fun _ => rfl) h).trans (Nat.lt_succ_self _)
  · exact hdigits (fun _ => rfl) h

theorem consumes_extractInt : Consumes extractInt := by
  intro l a rest h
  obtain ⟨p, hp, heq⟩ := Option.bind_eq_some_iff.mp h
  split at heq
  · cases heq
    exact (consumes_extractNumber _ _ _ hp).trans_le (length_skipSpace_le l)
  · contradiction

theorem inWord_of_extractInt {v : Int} {rest : Text}
    (h : extractInt l = some (v, rest)) : InWord v := by
  obtain ⟨q, -, heq⟩ := Option.bind_eq_some_iff.mp h
  split at heq
  · cases heq
    assumption
  · contradiction

theorem inWord_of_stoi {v : Int} (h : stoi l = some v) : InWord v := by
  obtain ⟨⟨v, rest⟩, hp, rfl⟩ := Option.map_eq_some_iff.mp h
  exact inWord_of_extractInt hp

theorem mem_extractUpTo {fuel : Nat} {a : α} (h : a ∈ extractUpTo f fuel l) :
    ∃ l rest, f l = some (a, rest) := by
  induction fuel generalizing l with
  | zero => cases h
  | succ fuel ih =>
      rw [extractUpTo] at h
      split at h
      · cases h
      · rename_i a' rest hf
        rcases List.mem_cons.mp h with rfl | h
        · exact ⟨l, rest, hf⟩
        · exact ih h

theorem extractUpTo_fuel (hf : Consumes f) {fuel more : Nat}
    (hfuel : l.length < fuel) :
    extractUpTo f (fuel + more) l = extractUpTo f fuel l := by
  induction fuel generalizing l with
  | zero => cases hfuel
  | succ fuel ih =>
      rw [Nat.succ_add, extractUpTo, extractUpTo]
      cases hl : f l with
      | none => rfl
      | some p =>
          have hlt := hf l p.1 p.2 hl
          dsimp only
          rw [ih (by omega)]

theorem extractAll_eq (hf : Consumes f) (l : Text) :
    extractAll f l =
      match f l with
      | none => []
      | some (a, rest) => a :: extractAll f rest := by
  rw [extractAll, extractUpTo]
  cases hl : f l with
  | none => rfl
  | some p =>
      have hlt := hf l p.1 p.2 hl
      obtain ⟨more, hmore⟩ := Nat.exists_eq_add_of_le hlt
      dsimp only
      rw [hmore, extractAll, extractUpTo_fuel hf (Nat.lt_succ_self _)]

section Loop

variable {σ ε : Type} {body : σ → α → Except ε σ}

theorem bind_eq_ok {x : Except ε α} {g : α → Except ε β} {b : β} :
    x >>= g = .ok b ↔ ∃ a, x = .ok a ∧ g a = .ok b := by
  cases x with
  | error e => exact ⟨fun h => (nomatch h), fun ⟨_, h, _⟩ => (nomatch h)⟩
  | ok a => exact ⟨fun h => ⟨a, rfl, h⟩, fun ⟨_, h, h'⟩ => by cases h; exact h'⟩

/-- What the body of a loop over extracted values keeps holds of all the values
when the loop ends without an exception. -/
theorem loop_invariant {P : List α → σ → Prop}
    (step : ∀ {before s a s'}, P before s → body s a = .ok s' → P (before ++ [a]) s')
    {s s' : σ} {l : List α} (h : P [] s) (hrun : l.foldlM body s = .ok s') :
    P l s' := by
  have hfold : ∀ (rest before : List α) (s : σ), P before s →
      rest.foldlM body s = .ok s' → P (before ++ rest) s' := by
    intro rest
    induction rest with
    | nil =>
        intro before s hs hrest
        cases hrest
        rwa [List.append_nil]
    | cons a rest ih =>
        intro before s hs hrest
        rw [List.foldlM_cons] at hrest
        obtain ⟨s₁, hbody, hrest⟩ := bind_eq_ok.mp hrest
        have happ := ih (before ++ [a]) s₁ (step hs hbody) hrest
        rwa [List.append_assoc, List.singleton_append] at happ
  exact hfold l [] s h hrun

end Loop

end CntPeer.Foundation
