import RegisterMachine.Proofs.Heap.Characters
import RegisterMachine.Proofs.Machine.Indexing

namespace RegisterMachine.Machine

open Heap (YieldsText between bound InRange Denotes wordPlace)
open Text (OccursAt FirstAt)

variable {m : Machine} {base : Nat} {text : String}

-- An operation that answers with a string of this text, unless a limit on bytes stops it. Only the heap changes, and
-- what is in use stays as it is.
def Answers (operation : MachineM Value) (m : Machine) (text : String) : Prop :=
  match operation m with
  | .ok w m' => m' = { m with heap := m'.heap } ∧ Heap.Frugal m.heap m'.heap ∧ m'.heap.text? w = some text
  | .error e m' => m' = { m with heap := m'.heap } ∧ m.heap.config.maxBytes ≠ none ∧ ∃ bytes, e = .outOfMemory bytes

theorem onHeap_answers {operation : HeapM Value} (yields : YieldsText operation m.heap text) : Answers (onHeap operation) m text := by
  unfold YieldsText Heap.Yields at yields
  unfold Answers onHeap
  cases done : operation m.heap with
  | ok w s =>
      simp only [done] at yields ⊢
      exact ⟨trivial,yields⟩
  | error e s =>
      simp only [done] at yields ⊢
      exact ⟨trivial,yields⟩

theorem Answers.ok {operation : MachineM Value} (answers : Answers operation m text) (unlimited : m.heap.config.maxBytes = none) :
    ∃ w m', operation m = .ok w m' ∧ m'.heap.text? w = some text := by
  unfold Answers at answers
  cases done : operation m with
  | ok w m' =>
      rw [done] at answers
      exact ⟨w,m',rfl,answers.2.2⟩
  | error e m' =>
      rw [done] at answers
      exact absurd unlimited answers.2.1

-- The string in the first register of a window with what stands in the second taken out, or the text of what stands in the
-- third put in before the place that the second denotes.
structure EditsByPosition (m : Machine) (base : Nat) (text : String) : Prop where
  remove : ∀ searched p, m.heap.text? (m.heap.registerValue (base + 2)) = some searched → FirstAt text.toList searched.toList 0 p →
    ∃ front back, text = front ++ searched ++ back ∧ front.length = p ∧ Answers (runNative (.intrinsic .remove) base) m (front ++ back)
  removeMissing : ∀ searched, m.heap.text? (m.heap.registerValue (base + 2)) = some searched →
    (∀ p, ¬ OccursAt text.toList searched.toList p) → runNative (.intrinsic .remove) base m = .ok (m.heap.registerValue (base + 1)) m
  insert : InRange (text.length + 1) (m.heap.registerValue (base + 2)).asInt →
    ∃ front back, text = front ++ back ∧ Denotes (text.length + 1) (m.heap.registerValue (base + 2)).asInt front.length ∧
      wordPlace text.length (m.heap.registerValue (base + 2)).asInt = Int32.ofNat front.length ∧
      Answers (runNative (.intrinsic .insert) base) m (front ++ m.heap.display (m.heap.registerValue (base + 3)) ++ back)
  insertOutside : ¬ InRange (text.length + 1) (m.heap.registerValue (base + 2)).asInt →
    runNative (.intrinsic .insert) base m =
      .error (.indexOutOfRange (m.heap.registerValue (base + 2)).asInt.toInt text.length) m

theorem remove_native (found : m.heap.text? (m.heap.registerValue (base + 1)) = some text) : runNative (.intrinsic .remove) base m =
    onHeap (Heap.removeText (m.heap.registerValue (base + 1)) (m.heap.registerValue (base + 2))) m := by
  change onHeap (Heap.removeFrom (m.heap.registerValue (base + 1)) (m.heap.registerValue (base + 2))) m = _
  cases first : m.heap.registerValue (base + 1) with
  | short | str => rfl
  | null | int | double | list | map | funcRef =>
      rw [first] at found
      cases found

theorem insert_native (found : m.heap.text? (m.heap.registerValue (base + 1)) = some text) : runNative (.intrinsic .insert) base m =
    onHeap (Heap.insertText (m.heap.registerValue (base + 1)) (m.heap.registerValue (base + 2)) (m.heap.registerValue (base + 3))) m := by
  change onHeap (Heap.insertInto (m.heap.registerValue (base + 1)) (m.heap.registerValue (base + 2)) (m.heap.registerValue (base + 3))) m = _
  cases first : m.heap.registerValue (base + 1) with
  | short | str => rfl
  | null | int | double | list | map | funcRef =>
      rw [first] at found
      cases found

theorem editsByPosition (intact : m.heap.Intact) (textual : m.heap.text? (m.heap.registerValue (base + 1)) = some text)
    (short : text.length < 0x80000000) : m.EditsByPosition base text where
  remove := by
    intro searched p sought first
    obtain ⟨front,back,whole,rfl⟩ := first.there
    obtain ⟨front,rfl⟩ : ∃ text : String, text.toList = front := ⟨String.ofList front,String.toList_ofList⟩
    obtain ⟨back,rfl⟩ : ∃ text : String, text.toList = back := ⟨String.ofList back,String.toList_ofList⟩
    rw [← String.toList_append,← String.toList_append] at whole
    obtain rfl := String.toList_injective whole
    rw [String.length_toList] at first ⊢
    refine ⟨front,back,rfl,rfl,?_⟩
    unfold Answers
    rw [remove_native textual]
    exact onHeap_answers (Heap.removeText_yieldsText intact (Heap.register_lasting textual) sought short first)
  removeMissing := by
    intro searched sought nowhere
    have missing : m.heap.stringIndexOf? (m.heap.registerValue (base + 1)) (m.heap.registerValue (base + 2)) 0 = none := by
      rw [Heap.stringIndexOf?_text textual sought]
      exact (Text.indexOf?_missing (Nat.zero_le _)).mpr fun p _ => nowhere p
    rw [remove_native textual]
    simp only [onHeap,Heap.removeText_missing missing]
  insert := by
    intro within
    obtain ⟨front,back,whole,denotes,made⟩ := Heap.insertText_yieldsText intact textual within
    refine ⟨front,back,whole,denotes,Heap.wordPlace_denotes denotes,?_⟩
    unfold Answers
    rw [insert_native textual]
    exact onHeap_answers made
  insertOutside := by
    intro outside
    rw [insert_native textual]
    simp only [onHeap,Heap.insertText_outside textual outside]

-- The positions of a string are those of its characters, for all that reads it, cuts it and finds something in it, for
-- taking the first occurrence of a string out of it and for putting a text into it.
theorem positions_count_characters (intact : m.heap.Intact) (textual : m.heap.text? v = some text) (short : text.length < 0x80000000) :
    m.heap.ReadsByPosition v text ∧ ∀ base, m.heap.registerValue (base + 1) = v → m.EditsByPosition base text :=
  ⟨Heap.readsByPosition intact textual short,fun _ this => editsByPosition intact (this ▸ textual) short⟩

-- Two letters with an accent, whose bytes come in pairs, among others.
def accented : Program where
  functions := [
    { name := "@main",registers := some 4,parameters := [],constants := [.string "aïaïb",.string "ïa"]
      code := [.named "LOAD_rA_kBC" [1,0],.named "LOAD_rA_kBC" [2,1],.named "RETURN" []] }]

theorem accented_runs : ∃ m : Machine, m.Reachable ∧ m.heap.text? (m.heap.registerValue (m.base + 1)) = some "aïaïb" ∧
    m.heap.text? (m.heap.registerValue (m.base + 2)) = some "ïa" ∧ m.heap.config.maxBytes = none := by
  have loaded : (Machine.load (.new { stackSlots := 4 }) accented true).Reachable := .load accented true (.new _)
  refine ⟨_,loaded.run 2,?_⟩
  decide +kernel

theorem positions_count_characters_accents : ∃ (m : Machine) (v pattern : Value), m.Reachable ∧ m.heap.text? v = some "aïaïb" ∧
    m.heap.text? pattern = some "ïa" ∧ m.heap.registerValue (m.base + 1) = v ∧ m.heap.registerValue (m.base + 2) = pattern ∧
    m.heap.stringIndexOf? v pattern 0 = some 1 ∧
    (∃ w s, Heap.stringSlice v (-2) Int32.maxValue m.heap = .ok w s ∧ s.text? w = some "ïb") ∧
    ∃ w m', runNative (.intrinsic .remove) m.base m = .ok w m' ∧ m'.heap.text? w = some "aïb" := by
  obtain ⟨m,reachable,textual,sought,unlimited⟩ := accented_runs
  obtain ⟨reads,edits⟩ := positions_count_characters reachable.secure.safe.toIntact textual (by decide +kernel)
  have first : FirstAt "aïaïb".toList "ïa".toList 0 1 := (Text.indexOf?_some (Nat.zero_le _)).mp (by decide +kernel)
  obtain ⟨front,back,whole,size,answers⟩ := (edits m.base rfl).remove "ïa" 1 sought first
  have around : front ++ back = "aïb" := by
    rw [String.append_assoc] at whole
    have letters : ['a'] ++ (['ï','a'] ++ ['ï','b']) = front.toList ++ (['ï','a'] ++ back.toList) := by
      simpa using congrArg String.toList whole
    obtain ⟨head,tail⟩ := List.append_inj letters (by rw [String.length_toList,size]; rfl)
    refine String.toList_injective ?_
    rw [String.toList_append,← head,← List.append_cancel_left tail]
    decide +kernel
  have cut : between "aïaïb" (bound "aïaïb".length (-2)) (bound "aïaïb".length Int32.maxValue) = "ïb" := by decide +kernel
  have slice := reads.slice (-2) Int32.maxValue
  rw [YieldsText,unlimited,cut] at slice
  obtain ⟨w,s,sliced,_,there⟩ := slice.ok
  rw [around] at answers
  exact ⟨m,_,_,reachable,textual,sought,rfl,rfl,(reads.found _ _ 0 1 sought (Nat.zero_le _)).mpr first,⟨w,s,sliced,there⟩,
    answers.ok unlimited⟩

end RegisterMachine.Machine
