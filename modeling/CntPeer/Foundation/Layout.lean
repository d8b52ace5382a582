import CntPeer.Foundation.TextStream

/-!
# Laid out texts

A text lays words out with any white space in front of them and behind them.
Extraction takes the words off it one by one, and a number is taken off whole.
-/

namespace CntPeer.Foundation

def Ends (l : Text) : Prop := ∀ c ∈ l.head?, isSpace c = true

inductive Layout : List Text → Text → Prop
  | done {space : Text} (blank : ∀ c ∈ space, isSpace c = true) : Layout [] space
  | word {space w l : Text} {ws : List Text}
      (blank : ∀ c ∈ space, isSpace c = true) (some : w ≠ [])
      (solid : ∀ c ∈ w, isSpace c = false) (ends : Ends l) (rest : Layout ws l) :
      Layout (w :: ws) (space ++ (w ++ l))

structure Spells (w : Text) (v : Int) : Prop where
  number : extractNumber w = some (v, [])
  word : InWord v

variable {w l : Text} {ws : List Text} {v : Int} {n : Nat}

theorem isDigit_of_isSpace {c : Char} (h : isSpace c = true) : c.isDigit = false := by
  simp only [isSpace, Bool.or_eq_true, decide_eq_true_eq] at h
  rcases h with ((((rfl | rfl) | rfl) | rfl) | rfl) | rfl
  all_goals decide

theorem takeWhile_append_of_stops {p : Char → Bool} (hw : ∀ c ∈ w, p c = true)
    (hl : ∀ c ∈ l.head?, p c = false) :
    (w ++ l).takeWhile p = w ∧ (w ++ l).dropWhile p = l := by
  rw [List.takeWhile_append_of_pos hw, List.dropWhile_append_of_pos hw]
  cases l with
  | nil => simp
  | cons c l => simp [hl c rfl]

theorem skipSpace_append {space : Text} (h : ∀ c ∈ space, isSpace c = true)
    (hl : ∀ c ∈ l.head?, isSpace c = false) : skipSpace (space ++ l) = l :=
  (takeWhile_append_of_stops h hl).2

theorem extractDigits_append (h : extractDigits w = some (n, [])) (hl : Ends l) :
    extractDigits (w ++ l) = some (n, l) := by
  simp only [extractDigits] at h ⊢
  split at h
  · contradiction
  · rename_i hne
    simp only [Option.some.injEq, Prod.mk.injEq, List.dropWhile_eq_nil_iff] at h
    have hsplit := takeWhile_append_of_stops h.2 fun c hc =>
      isDigit_of_isSpace (hl c hc)
    have hw := (takeWhile_append_of_stops (l := []) h.2 nofun).1
    rw [List.append_nil] at hw
    rw [hw] at h hne
    rw [hsplit.1, hsplit.2, if_neg hne, h.1]

theorem extractNumber_append (h : extractNumber w = some (v, [])) (hl : Ends l) :
    extractNumber (w ++ l) = some (v, l) := by
  have hdigits : ∀ (g : Nat → Int) {k : Text},
      (extractDigits k).map (fun p => (g p.1, p.2)) = some (v, []) →
      (extractDigits (k ++ l)).map (fun p => (g p.1, p.2)) = some (v, l) := by
    intro g k hk
    obtain ⟨⟨n, rest⟩, hn, heq⟩ := Option.map_eq_some_iff.mp hk
    cases heq
    rw [extractDigits_append hn hl]
    rfl
  unfold extractNumber at h
  split at h
  · exact hdigits (fun n => -(n : Int)) h
  · exact hdigits (fun n => (n : Int)) h
  · rename_i hminus hplus
    cases w with
    | nil => cases h
    | cons c w =>
        have hc : extractNumber (c :: w ++ l) =
            (extractDigits (c :: w ++ l)).map fun p => ((p.1 : Int), p.2) := by
          unfold extractNumber
          split
          · rename_i heq
            cases heq
            exact absurd rfl (hminus w)
          · rename_i heq
            cases heq
            exact absurd rfl (hplus w)
          · rfl
        rw [hc]
        exact hdigits (fun n => (n : Int)) h

theorem Layout.skip (h : Layout (w :: ws) l) :
    ∃ rest, skipSpace l = w ++ rest ∧ w ≠ [] ∧ (∀ c ∈ w, isSpace c = false) ∧
      Ends rest ∧ Layout ws rest := by
  cases h with
  | @word space _ rest _ blank some solid ends hrest =>
      refine ⟨rest, skipSpace_append blank fun c hc => ?_, some, solid, ends, hrest⟩
      obtain ⟨c', w, rfl⟩ := List.exists_cons_of_ne_nil some
      cases hc
      exact solid _ List.mem_cons_self

theorem Layout.takes_word (h : Layout (w :: ws) l) :
    ∃ rest, extractWord l = some (w, rest) ∧ Layout ws rest := by
  obtain ⟨rest, hskip, hne, hsolid, hends, hrest⟩ := h.skip
  obtain ⟨c, w, rfl⟩ := List.exists_cons_of_ne_nil hne
  refine ⟨rest, ?_, hrest⟩
  obtain ⟨htake, hdrop⟩ := takeWhile_append_of_stops (w := w) (l := rest)
    (p := fun c => !isSpace c)
    (fun c hc => by rw [hsolid c (List.mem_cons_of_mem _ hc)]; rfl)
    (fun c hc => by rw [hends c hc]; rfl)
  rw [extractWord, hskip, List.cons_append]
  simp only [htake, hdrop]

theorem Layout.takes_int (h : Layout (w :: ws) l) (hv : Spells w v) :
    ∃ rest, extractInt l = some (v, rest) ∧ Layout ws rest := by
  obtain ⟨rest, hskip, -, -, hends, hrest⟩ := h.skip
  refine ⟨rest, ?_, hrest⟩
  rw [extractInt, hskip, extractNumber_append hv.number hends,
    Option.bind_some, if_pos hv.word]

theorem Layout.skip_nil (h : Layout [] l) : skipSpace l = [] := by
  cases h with
  | done blank => exact List.dropWhile_eq_nil_iff.mpr blank

theorem Layout.no_word (h : Layout [] l) :
    extractWord l = none := by
  rw [extractWord, h.skip_nil]

theorem Layout.no_int (h : Layout [] l) :
    extractInt l = none := by
  rw [extractInt, h.skip_nil]
  rfl

theorem layout_words (l : Text) : Layout (extractAll extractWord l) l := by
  induction hn : l.length using Nat.strongRecOn generalizing l with
  | ind n ih =>
      have hspace : ∀ c ∈ l.takeWhile isSpace, isSpace c = true := fun _ hc =>
        List.mem_takeWhile_imp hc
      rw [extractAll_eq consumes_extractWord]
      cases hword : extractWord l with
      | none =>
          refine .done ?_
          rw [extractWord] at hword
          split at hword
          · rename_i hskip
            exact List.dropWhile_eq_nil_iff.mp hskip
          · contradiction
      | some p =>
          obtain ⟨w, rest⟩ := p
          have hlt := consumes_extractWord l w rest hword
          have hrest := ih rest.length (hn ▸ hlt) rest rfl
          rw [extractWord] at hword
          split at hword
          · contradiction
          · rename_i c tail hskip
            cases hword
            have hl : l = l.takeWhile isSpace ++ (c :: tail.takeWhile (fun c => !isSpace c) ++
                tail.dropWhile fun c => !isSpace c) := by
              rw [List.cons_append, List.takeWhile_append_dropWhile, ← hskip]
              exact List.takeWhile_append_dropWhile.symm
            have hfirst : isSpace c = false := by
              have hnot := List.head?_dropWhile_not isSpace l
              rw [← skipSpace, hskip] at hnot
              simpa using hnot
            have hmore := List.head?_dropWhile_not (fun c => !isSpace c) tail
            dsimp only
            rw [hl]
            refine .word hspace nofun ?_ ?_ hrest
            · intro c' hc'
              rcases List.mem_cons.mp hc' with rfl | hc'
              · exact hfirst
              · simpa using List.mem_takeWhile_imp hc'
            · intro c' hc'
              rw [Option.mem_def] at hc'
              rw [hc'] at hmore
              simpa using hmore

end CntPeer.Foundation
