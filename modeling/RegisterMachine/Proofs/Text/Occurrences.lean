import RegisterMachine.Proofs.Text.CodePoints
import RegisterMachine.Proofs.Text.Pieces

namespace RegisterMachine.Text

-- A sequence has another one in it, with so much before it.
def OccursAt (whole part : List α) (p : Nat) : Prop := ∃ before after, whole = before ++ part ++ after ∧ before.length = p

structure FirstAt (whole part : List α) (start p : Nat) : Prop where
  there : OccursAt whole part p
  later : start ≤ p
  least : ∀ q, start ≤ q → OccursAt whole part q → p ≤ q

section Sequences

variable {whole part : List α} {start p q : Nat}

theorem occursAt_drop : OccursAt whole part p ↔ p ≤ whole.length ∧ part <+: whole.drop p := by
  constructor
  · rintro ⟨before,after,rfl,rfl⟩
    rw [List.append_assoc,List.drop_left]
    exact ⟨by rw [List.length_append]; exact Nat.le_add_right _ _,List.prefix_append _ _⟩
  · rintro ⟨inside,after,rest⟩
    exact ⟨whole.take p,after,by rw [List.append_assoc,rest,List.take_append_drop],List.length_take_of_le inside⟩

theorem OccursAt.inside (occurs : OccursAt whole part p) : p ≤ whole.length := (occursAt_drop.mp occurs).1

theorem occursAt_nil : OccursAt whole [] p ↔ p ≤ whole.length := by
  rw [occursAt_drop]
  exact and_iff_left List.nil_prefix

theorem FirstAt.unique (first : FirstAt whole part start p) (second : FirstAt whole part start q) : p = q :=
  Nat.le_antisymm (first.least q second.later second.there) (second.least p first.later first.there)

theorem firstAt_nil (inside : start ≤ whole.length) : FirstAt whole [] start p ↔ p = start := by
  have here : FirstAt whole [] start start := ⟨occursAt_nil.mpr inside,Nat.le_refl _,fun _ later _ => later⟩
  constructor
  · exact fun first => first.unique here
  · rintro rfl
    exact here

end Sequences

-- What a search finds. The induction is on the letters, as it goes through them.
section Letters

variable {pattern letters : List Char} {passed start p : Nat}

theorem findFrom_some : findFrom pattern passed letters = some p ↔
    ∃ i, p = passed + i ∧ i ≤ letters.length ∧ pattern <+: letters.drop i ∧ ∀ j < i, ¬ pattern <+: letters.drop j := by
  induction letters generalizing passed with
  | nil =>
      cases pattern with
      | nil => simp [findFrom,eq_comm]
      | cons => simp [findFrom]
  | cons c rest ih =>
      rw [findFrom]
      by_cases here : pattern <+: c :: rest
      · rw [if_pos (List.isPrefixOf_iff_prefix.mpr here)]
        constructor
        · rintro ⟨⟩
          exact ⟨0,rfl,Nat.zero_le _,here,by simp⟩
        · rintro ⟨i,rfl,_,_,first⟩
          rcases Nat.eq_zero_or_pos i with rfl | later
          · rfl
          · exact absurd here (first 0 later)
      · rw [if_neg fun there => here (List.isPrefixOf_iff_prefix.mp there),ih]
        constructor
        · rintro ⟨i,rfl,inside,there,first⟩
          refine ⟨i + 1,by omega,Nat.succ_le_succ inside,there,fun j before => ?_⟩
          cases j with
          | zero => exact here
          | succ j => exact first j (Nat.lt_of_succ_lt_succ before)
        · rintro ⟨i,rfl,inside,there,first⟩
          cases i with
          | zero => exact absurd there here
          | succ i => exact ⟨i,by omega,Nat.le_of_succ_le_succ inside,there,fun j before => first (j + 1) (Nat.succ_lt_succ before)⟩

theorem firstAt_drop (inside : start ≤ letters.length) : FirstAt letters pattern start p ↔
    ∃ i, p = start + i ∧ i ≤ (letters.drop start).length ∧ pattern <+: (letters.drop start).drop i ∧
      ∀ j < i, ¬ pattern <+: (letters.drop start).drop j := by
  simp only [List.drop_drop,List.length_drop]
  constructor
  · rintro ⟨there,later,least⟩
    obtain ⟨i,rfl⟩ := Nat.exists_eq_add_of_le later
    obtain ⟨within,found⟩ := occursAt_drop.mp there
    refine ⟨i,rfl,by omega,found,fun j before sooner => ?_⟩
    have upTo := least (start + j) (Nat.le_add_right _ _) (occursAt_drop.mpr ⟨by omega,sooner⟩)
    omega
  · rintro ⟨i,rfl,within,found,first⟩
    refine ⟨occursAt_drop.mpr ⟨by omega,found⟩,Nat.le_add_right _ _,fun q later there => ?_⟩
    obtain ⟨j,rfl⟩ := Nat.exists_eq_add_of_le later
    by_contra sooner
    exact first j (by omega) (occursAt_drop.mp there).2

end Letters

section Texts

variable {text pattern : String} {start p : Nat}

theorem indexOf?_some (inside : start ≤ text.length) : indexOf? text pattern start = some p ↔ FirstAt text.toList pattern.toList start p := by
  rw [← String.length_toList] at inside
  simp only [indexOf?,Nat.min_eq_left inside]
  rw [findFrom_some,firstAt_drop inside]

theorem indexOf?_missing (inside : start ≤ text.length) :
    indexOf? text pattern start = none ↔ ∀ q, start ≤ q → ¬ OccursAt text.toList pattern.toList q := by
  rw [← String.length_toList] at inside
  simp only [indexOf?]
  rw [findFrom_none,infix_drop,not_exists]
  simp only [List.drop_drop]
  constructor
  · intro nowhere q later there
    obtain ⟨j,rfl⟩ := Nat.exists_eq_add_of_le later
    exact nowhere j (occursAt_drop.mp there).2
  · intro nowhere i found
    by_cases within : start + i ≤ text.toList.length
    · exact nowhere (start + i) (Nat.le_add_right _ _) (occursAt_drop.mpr ⟨within,found⟩)
    · -- Behind the end there is only the empty pattern, and that is found at the start.
      rw [List.drop_eq_nil_of_le (by omega)] at found
      refine nowhere start (Nat.le_refl _) (occursAt_drop.mpr ⟨inside,?_⟩)
      rw [List.prefix_nil.mp found]
      exact List.nil_prefix

end Texts

section Bytes

variable {pattern letters : List Char} {c d : Char} {bytes after before : List UInt8}

def encode (letters : List Char) : List UInt8 := letters.flatMap String.utf8EncodeChar

theorem encode_cons : encode (c :: letters) = String.utf8EncodeChar c ++ encode letters := List.flatMap_cons

theorem encode_append : encode (letters ++ pattern) = encode letters ++ encode pattern := List.flatMap_append

theorem encode_ne_nil (some : letters ≠ []) : encode letters ≠ [] := by
  obtain ⟨c,rest,rfl⟩ := List.exists_cons_of_ne_nil some
  rw [encode_cons]
  exact List.append_ne_nil_of_left_ne_nil String.utf8EncodeChar_ne_nil _

theorem encoded_head (same : String.utf8EncodeChar c ++ bytes = String.utf8EncodeChar d ++ after) : c = d := by
  have tied : List.compareLex compare (String.utf8EncodeChar d ++ after) (String.utf8EncodeChar d ++ after) = .eq := by
    simp
  rcases Nat.lt_trichotomy c.toNat d.toNat with less | equal | greater
  · have below := encoded_below less bytes after
    rw [same,tied] at below
    cases below
  · exact Char.toNat_inj.mp equal
  · have below := encoded_below greater after bytes
    rw [same,tied] at below
    cases below

theorem encode_prefix : encode pattern <+: encode letters ↔ pattern <+: letters := by
  constructor
  · intro begins
    induction pattern generalizing letters with
    | nil => exact List.nil_prefix
    | cons c pattern ih =>
        obtain ⟨after,same⟩ := begins
        cases letters with
        | nil => exact absurd (List.append_eq_nil_iff.mp same).1 (encode_ne_nil (List.cons_ne_nil _ _))
        | cons d letters =>
            rw [encode_cons,encode_cons,List.append_assoc] at same
            obtain rfl := encoded_head same
            exact List.cons_prefix_cons.mpr ⟨rfl,ih ⟨after,List.append_cancel_left same⟩⟩
  · rintro ⟨after,rfl⟩
    rw [encode_append]
    exact List.prefix_append _ _

-- Bytes that begin with those of a character begin where a character begins.
theorem encode_boundary (same : encode letters = before ++ (String.utf8EncodeChar c ++ after)) :
    ∃ front back, letters = front ++ back ∧ before = encode front := by
  induction letters generalizing before with
  | nil =>
      obtain ⟨_,absent⟩ := List.append_eq_nil_iff.mp same.symm
      exact absurd (List.append_eq_nil_iff.mp absent).1 String.utf8EncodeChar_ne_nil
  | cons d letters ih =>
      rw [encode_cons] at same
      rcases Nat.eq_zero_or_pos before.length with none | some
      · exact ⟨[],d :: letters,rfl,List.eq_nil_of_length_eq_zero none⟩
      · have long : (String.utf8EncodeChar d).length ≤ before.length := by
          -- Else a later byte of one character would be the first of the other.
          by_contra within
          have bound : before.length < (String.utf8EncodeChar d).length := by omega
          have first : (String.utf8EncodeChar d)[before.length]? = (String.utf8EncodeChar c)[0]? := by
            rw [← List.getElem?_append_left bound,same,List.getElem?_append_right (Nat.le_refl _),Nat.sub_self]
            exact List.getElem?_append_left (List.length_pos_of_ne_nil String.utf8EncodeChar_ne_nil)
          rw [List.getElem?_eq_getElem bound,List.getElem?_eq_getElem (List.length_pos_of_ne_nil String.utf8EncodeChar_ne_nil)] at first
          have leading := UInt8.isUTF8FirstByte_getElem_zero_utf8EncodeChar (c := c)
          rw [← Option.some.inj first,UInt8.isUTF8FirstByte_getElem_utf8EncodeChar] at leading
          omega
        obtain ⟨more,rfl⟩ := List.prefix_of_prefix_length_le (List.prefix_append _ (encode letters)) ⟨_,same.symm⟩ long
        rw [List.append_assoc] at same
        obtain ⟨front,back,rfl,rfl⟩ := ih (List.append_cancel_left same)
        exact ⟨d :: front,back,rfl,encode_cons.symm⟩

-- Where a character stands among the bytes.
def offset (letters : List Char) (p : Nat) : Nat := (encode (letters.take p)).length

theorem offset_front (front back : List Char) : offset (front ++ back) front.length = (encode front).length := by
  rw [offset,List.take_left]

theorem offset_lt {p q : Nat} (less : p < q) (inside : q ≤ letters.length) : offset letters p < offset letters q := by
  have parts : letters.take q = letters.take p ++ (letters.take q).drop p := by
    conv => lhs; rw [← List.take_append_drop p (letters.take q),List.take_take,Nat.min_eq_left (Nat.le_of_lt less)]
  have some : (letters.take q).drop p ≠ [] := by
    rw [← List.length_pos_iff,List.length_drop,List.length_take_of_le inside]
    omega
  have more := List.length_pos_of_ne_nil (encode_ne_nil some)
  rw [offset,offset,parts,encode_append,List.length_append]
  omega

theorem offset_le {p q : Nat} (first : p ≤ letters.length) (second : q ≤ letters.length) : offset letters p ≤ offset letters q ↔ p ≤ q := by
  constructor
  · intro before
    by_contra after
    have apart := offset_lt (Nat.lt_of_not_le after) first
    omega
  · intro before
    rcases Nat.lt_or_eq_of_le before with less | rfl
    · exact Nat.le_of_lt (offset_lt less second)
    · exact Nat.le_refl _

theorem offset_inside {p : Nat} (inside : p ≤ letters.length) : offset letters p ≤ (encode letters).length := by
  have whole : offset letters letters.length = (encode letters).length := by rw [offset,List.take_length]
  rw [← whole]
  exact (offset_le inside (Nat.le_refl _)).mpr inside

-- The bytes of a text that is not empty are found exactly where its characters are.
theorem occursAt_encode {b : Nat} (nonempty : pattern ≠ []) :
    OccursAt (encode letters) (encode pattern) b ↔ ∃ p, b = offset letters p ∧ OccursAt letters pattern p := by
  constructor
  · rintro ⟨before,after,same,rfl⟩
    obtain ⟨c,rest,rfl⟩ := List.exists_cons_of_ne_nil nonempty
    have start := same
    rw [encode_cons,List.append_assoc,List.append_assoc] at start
    obtain ⟨front,back,rfl,rfl⟩ := encode_boundary start
    rw [encode_append,List.append_assoc] at same
    obtain ⟨left,rfl⟩ := encode_prefix.mp ⟨after,(List.append_cancel_left same).symm⟩
    exact ⟨front.length,(offset_front front _).symm,front,left,by rw [List.append_assoc],rfl⟩
  · rintro ⟨_,rfl,front,back,rfl,rfl⟩
    exact ⟨encode front,encode back,by rw [encode_append,encode_append],by rw [List.append_assoc,offset_front]⟩

theorem firstAt_encode {start b : Nat} (inside : start ≤ letters.length) :
    FirstAt (encode letters) (encode pattern) (offset letters start) b ↔ ∃ p, b = offset letters p ∧ FirstAt letters pattern start p := by
  by_cases empty : pattern = []
  · subst empty
    change FirstAt (encode letters) [] _ b ↔ _
    simp only [firstAt_nil inside,firstAt_nil (offset_inside inside),exists_eq_right]
  constructor
  · rintro ⟨there,later,least⟩
    obtain ⟨p,rfl,occurs⟩ := (occursAt_encode empty).mp there
    refine ⟨p,rfl,occurs,(offset_le inside occurs.inside).mp later,fun q after other => ?_⟩
    exact (offset_le occurs.inside other.inside).mp
      (least _ ((offset_le inside other.inside).mpr after) ((occursAt_encode empty).mpr ⟨q,rfl,other⟩))
  · rintro ⟨p,rfl,there,later,least⟩
    refine ⟨(occursAt_encode empty).mpr ⟨p,rfl,there⟩,(offset_le inside there.inside).mpr later,fun b after occurs => ?_⟩
    obtain ⟨q,rfl,other⟩ := (occursAt_encode empty).mp occurs
    exact (offset_le there.inside other.inside).mpr (least q ((offset_le inside other.inside).mp after) other)

end Bytes

end RegisterMachine.Text
