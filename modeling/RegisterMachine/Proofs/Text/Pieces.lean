import Mathlib.Data.List.Infix
import RegisterMachine.Text.Basic
import RegisterMachine.Text.Search

namespace RegisterMachine.Text

section Letters

variable {pattern letters piece rest : List Char} {pieces pieces' : List (List Char)}

-- The pieces of a text. Each ends where the pattern is found first, and the last one has it nowhere.
inductive Cuts (pattern : List Char) : List Char → List (List Char) → Prop where
  | last {piece : List Char} : ¬ pattern <:+: piece → Cuts pattern piece [piece]
  | cut {piece rest : List Char} {pieces : List (List Char)} :
      (∀ i < piece.length, ¬ pattern <+: (piece ++ pattern ++ rest).drop i) →
      Cuts pattern rest pieces → Cuts pattern (piece ++ pattern ++ rest) (piece :: pieces)

theorem infix_drop : pattern <:+: letters ↔ ∃ i, pattern <+: letters.drop i := by
  constructor
  · rintro ⟨before,after,rfl⟩
    exact ⟨before.length,after,by rw [List.append_assoc,List.drop_left]⟩
  · rintro ⟨i,there⟩
    exact there.isInfix.trans (List.drop_suffix i letters).isInfix

theorem infix_inside (nonempty : pattern ≠ []) : pattern <:+: letters ↔ ∃ i < letters.length, pattern <+: letters.drop i := by
  rw [infix_drop]
  constructor
  · rintro ⟨i,there⟩
    refine ⟨i,?_,there⟩
    by_contra outside
    rw [List.drop_eq_nil_of_le (Nat.le_of_not_lt outside)] at there
    exact nonempty (List.prefix_nil.mp there)
  · rintro ⟨i,_,there⟩
    exact ⟨i,there⟩

theorem Cuts.nonempty (cuts : Cuts pattern letters pieces) : pieces ≠ [] := by
  cases cuts <;> exact List.cons_ne_nil _ _

theorem Cuts.joined (cuts : Cuts pattern letters pieces) : pattern.intercalate pieces = letters := by
  induction cuts with
  | last => exact List.intercalate_singleton
  | @cut piece rest pieces _ cuts ih =>
      obtain ⟨first,others,rfl⟩ := List.exists_cons_of_ne_nil cuts.nonempty
      rw [List.intercalate_cons_cons,ih]

theorem Cuts.apart (nonempty : pattern ≠ []) (cuts : Cuts pattern letters pieces) : ∀ piece ∈ pieces, ¬ pattern <:+: piece := by
  induction cuts with
  | last absent => simpa using absent
  | @cut piece rest pieces first _ ih =>
      simp only [List.mem_cons,forall_eq_or_imp]
      refine ⟨fun found => ?_,ih⟩
      obtain ⟨i,inside,there⟩ := (infix_inside nonempty).mp found
      refine first i inside (there.trans ?_)
      rw [List.append_assoc,List.drop_append_of_le_length (Nat.le_of_lt inside)]
      exact List.prefix_append _ _

theorem Cuts.whole (absent : ¬ pattern <:+: letters) (cuts : Cuts pattern letters pieces) : pieces = [letters] := by
  cases cuts with
  | last => rfl
  | @cut piece rest => exact absurd ⟨piece,rest,rfl⟩ absent

theorem cut_unique {piece' rest' : List Char} (same : piece ++ pattern ++ rest = piece' ++ pattern ++ rest')
    (first : ∀ i < piece'.length, ¬ pattern <+: (piece' ++ pattern ++ rest').drop i) : piece'.length ≤ piece.length := by
  by_contra shorter
  refine first piece.length (Nat.lt_of_not_le shorter) ?_
  rw [← same,List.append_assoc,List.drop_left]
  exact List.prefix_append _ _

theorem Cuts.unique (cuts : Cuts pattern letters pieces) (cuts' : Cuts pattern letters pieces') : pieces = pieces' := by
  induction cuts generalizing pieces' with
  | last absent => exact (cuts'.whole absent).symm
  | @cut piece rest pieces first _ ih =>
      generalize whole : piece ++ pattern ++ rest = letters at cuts'
      cases cuts' with
      | last absent => exact absurd ⟨piece,rest,whole⟩ absent
      | @cut piece' rest' pieces' first' others =>
          have size := Nat.le_antisymm (cut_unique whole.symm first) (cut_unique whole first')
          rw [List.append_assoc,List.append_assoc] at whole
          obtain ⟨rfl,tail⟩ := List.append_inj whole size
          obtain rfl := List.append_cancel_left tail
          rw [ih others]

-- How the pieces are found. The induction is on the letters, as the search goes. What has been read of a piece has
-- no beginning of the pattern, and what is left begins behind the letters that belong to the last match.
theorem piecesFrom_cuts (nonempty : pattern ≠ []) (skip : Nat) (piece letters : List Char)
    (clean : ∀ i < piece.length, ¬ pattern <+: (piece.reverse ++ letters.drop skip).drop i) :
    Cuts pattern (piece.reverse ++ letters.drop skip) (piecesFrom pattern skip piece letters) := by
  induction letters generalizing skip piece with
  | nil =>
      rw [List.drop_nil,List.append_nil] at clean ⊢
      have absent : ¬ pattern <:+: piece.reverse := by
        rw [infix_inside nonempty,List.length_reverse]
        rintro ⟨i,inside,there⟩
        exact clean i inside there
      cases skip <;> exact .last absent
  | cons c rest ih =>
      cases skip with
      | succ skip => exact ih skip piece clean
      | zero =>
          rw [List.drop_zero] at clean ⊢
          rw [piecesFrom]
          by_cases found : pattern <+: c :: rest
          · rw [if_pos (List.isPrefixOf_iff_prefix.mpr found)]
            obtain ⟨after,whole⟩ := found
            have left : rest.drop (pattern.length - 1) = after := by
              obtain ⟨_,more,rfl⟩ := List.exists_cons_of_ne_nil nonempty
              obtain ⟨_,rfl⟩ := List.cons.inj whole
              exact List.drop_left
            have cuts := ih (pattern.length - 1) [] (by simp)
            rw [left,List.reverse_nil,List.nil_append] at cuts
            rw [← whole,← List.append_assoc] at clean ⊢
            exact .cut (by rwa [List.length_reverse]) cuts
          · rw [if_neg fun here => found (List.isPrefixOf_iff_prefix.mp here)]
            have moved : (c :: piece).reverse ++ rest.drop 0 = piece.reverse ++ c :: rest := by simp
            rw [← moved]
            refine ih 0 (c :: piece) fun i inside there => ?_
            rw [moved] at there
            rcases Nat.lt_succ_iff_lt_or_eq.mp inside with before | rfl
            · exact clean i before there
            · rw [← List.length_reverse,List.drop_left] at there
              exact found there

theorem piecesFrom_ne_nil (pattern : List Char) (skip : Nat) (piece letters : List Char) : piecesFrom pattern skip piece letters ≠ [] := by
  induction letters generalizing skip piece with
  | nil => cases skip <;> exact List.cons_ne_nil _ _
  | cons c rest ih =>
      cases skip with
      | succ skip => exact ih skip piece
      | zero =>
          rw [piecesFrom]
          split
          · exact List.cons_ne_nil _ _
          · exact ih 0 (c :: piece)

-- Replacing puts the replacement between the pieces. The letters that were read of a piece stand before what is made of the rest.
theorem replaceFrom_pieces (pattern replacement : List Char) (skip : Nat) (piece letters : List Char) :
    replacement.intercalate (piecesFrom pattern skip piece letters) = piece.reverse ++ replaceFrom pattern replacement skip letters := by
  induction letters generalizing skip piece with
  | nil => cases skip <;> simp [piecesFrom,replaceFrom]
  | cons c rest ih =>
      cases skip with
      | succ skip => exact ih skip piece
      | zero =>
          rw [piecesFrom,replaceFrom]
          by_cases found : pattern.isPrefixOf (c :: rest) = true
          · obtain ⟨first,others,pieces⟩ := List.exists_cons_of_ne_nil (piecesFrom_ne_nil pattern (pattern.length - 1) [] rest)
            have left := ih (pattern.length - 1) []
            rw [if_pos found,if_pos found,pieces,List.intercalate_cons_cons,← pieces,left,List.reverse_nil,List.nil_append,
              List.append_assoc]
          · rw [if_neg found,if_neg found,ih 0 (c :: piece),List.reverse_cons,List.append_assoc,List.singleton_append]

theorem findFrom_none : findFrom pattern passed letters = none ↔ ¬ pattern <:+: letters := by
  induction letters generalizing passed with
  | nil =>
      simp only [findFrom,List.infix_nil]
      cases pattern <;> simp
  | cons c rest ih =>
      rw [findFrom,List.infix_cons_iff,not_or,← @ih (passed + 1)]
      by_cases here : pattern <+: c :: rest
      · simp [here]
      · rw [if_neg fun there => here (List.isPrefixOf_iff_prefix.mp there)]
        simp [here]

theorem intercalate_letters (letters : List Char) : ([] : List Char).intercalate (letters.map fun c => [c]) = letters := by
  induction letters with
  | nil => rfl
  | cons c rest ih =>
      cases rest with
      | nil => rfl
      | cons d rest =>
          rw [List.map_cons] at ih
          rw [List.map_cons,List.map_cons,List.intercalate_cons_cons,ih,List.append_nil,List.singleton_append]

end Letters

variable {text pattern : String} {pieces pieces' : List String}

-- Whether a text has a pattern in it.
def Contains (text pattern : String) : Prop := pattern.toList <:+: text.toList

-- The pieces of a text between the occurrences of a pattern; the single letters where the pattern is empty.
structure SplitsInto (text pattern : String) (pieces : List String) : Prop where
  letters : pattern = "" → pieces = text.toList.map String.singleton
  cuts : pattern ≠ "" → Cuts pattern.toList text.toList (pieces.map String.toList)

theorem toList_ne_nil {text : String} (nonempty : text ≠ "") : text.toList ≠ [] :=
  fun empty => nonempty (String.toList_eq_nil_iff.mp empty)

theorem split_splitsInto (text pattern : String) : SplitsInto text pattern (split text pattern) where
  letters := by
    rintro rfl
    rfl
  cuts := by
    intro nonempty
    have found : pattern.isEmpty = false := by simpa using nonempty
    have cuts := piecesFrom_cuts (toList_ne_nil nonempty) 0 [] text.toList (by simp)
    simpa [split,found,Function.comp_def] using cuts

theorem SplitsInto.unique (first : SplitsInto text pattern pieces) (second : SplitsInto text pattern pieces') : pieces = pieces' := by
  by_cases empty : pattern = ""
  · rw [first.letters empty,second.letters empty]
  · exact List.map_injective_iff.mpr (fun _ _ => String.toList_injective) ((first.cuts empty).unique (second.cuts empty))

theorem SplitsInto.joined (splits : SplitsInto text pattern pieces) : join pattern pieces = text := by
  refine String.toList_injective ?_
  rw [join,String.toList_intercalate]
  by_cases empty : pattern = ""
  · subst empty
    rw [splits.letters rfl,List.map_map]
    have single : String.toList ∘ String.singleton = fun c => [c] := funext String.toList_singleton
    rw [single]
    exact intercalate_letters _
  · exact (splits.cuts empty).joined

theorem SplitsInto.apart (splits : SplitsInto text pattern pieces) (nonempty : pattern ≠ "") : ∀ piece ∈ pieces, ¬ Contains piece pattern :=
  fun piece member => (splits.cuts nonempty).apart (toList_ne_nil nonempty) piece.toList (List.mem_map_of_mem member)

theorem SplitsInto.whole (splits : SplitsInto text pattern pieces) (absent : ¬ Contains text pattern) : pieces = [text] := by
  have nonempty : pattern ≠ "" := by
    rintro rfl
    exact absent (List.nil_infix)
  have whole : pieces.map String.toList = [text].map String.toList := (splits.cuts nonempty).whole absent
  exact List.map_injective_iff.mpr (fun _ _ => String.toList_injective) whole

theorem replace_joins (text replacement : String) (nonempty : pattern ≠ "") :
    replace text pattern replacement = join replacement (split text pattern) := by
  have found : pattern.isEmpty = false := by simpa using nonempty
  refine String.toList_injective ?_
  rw [join,String.toList_intercalate]
  simpa [replace,split,found,Function.comp_def] using (replaceFrom_pieces pattern.toList replacement.toList 0 [] text.toList).symm

theorem indexOf?_none : indexOf? text pattern 0 = none ↔ ¬ Contains text pattern := by
  rw [indexOf?,findFrom_none,List.drop_zero]
  rfl

end RegisterMachine.Text
