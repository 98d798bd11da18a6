import RegisterMachine.Proofs.Heap.Building
import RegisterMachine.Proofs.Map.Overlay

namespace RegisterMachine.Heap

variable {h h' : Heap}

-- A window of the register file, inside it, whose names are strings of different texts or null.
structure Window (h : Heap) (first count : Nat) : Prop where
  inside : first + count ≤ h.registers.size
  texts : ∀ i ∈ List.range' first count, h.registerName i = .null ∨ (h.text? (h.registerName i)).isSome = true
  different : ∀ i ∈ List.range' first count, ∀ j ∈ List.range' first count, i ≠ j →
    (h.text? (h.registerName i)).isSome = true → h.text? (h.registerName i) ≠ h.text? (h.registerName j)

def windowName (h : Heap) (first count i : Nat) : Option Key :=
  if i ∈ List.range' first count then (h.text? (h.registerName i)).map Key.text else none

-- The values of the registers of the window under their names.
def windowMap (h : Heap) (first count : Nat) (k : Key) : Option Value :=
  ((List.range' first count).find? fun i => h.windowName first count i == some k).map h.registerValue

theorem windowName_some : h.windowName first count i = some k ↔
    i ∈ List.range' first count ∧ ∃ text, h.text? (h.registerName i) = some text ∧ .text text = k := by
  unfold windowName
  split
  · rename_i inside
    simp only [Option.map_eq_some_iff,inside,true_and]
  · rename_i outside
    simp [outside]

theorem Window.different_names (window : Window h first count) (left : h.windowName first count i = some k)
    (right : h.windowName first count j = some k) : i = j := by
  obtain ⟨inside,text,found,rfl⟩ := windowName_some.mp left
  obtain ⟨inside',text',found',same⟩ := windowName_some.mp right
  cases same
  by_contra apart
  exact window.different i inside j inside' apart (by rw [found]; rfl) (found.trans found'.symm)

theorem Window.register (window : Window h first count) (member : i ∈ List.range' first count) : ∃ register, h.registers[i]? = some register := by
  obtain ⟨_,after⟩ := List.mem_range'_1.mp member
  exact ⟨_,Array.getElem?_eq_getElem (Nat.lt_of_lt_of_le after window.inside)⟩

theorem Window.mem_bindings (window : Window h first count) : (name,i) ∈ (h.aliasesFor first count).bindings.toList ↔
    i ∈ List.range' first count ∧ h.registerName i = name ∧ name.isNull = false := by
  have width : min (first + count) h.registers.size - first = count := by
    have := window.inside
    omega
  rw [aliasesFor_bindings,width]
  simp only [List.mem_map,List.mem_filter,Bool.not_eq_true',Prod.mk.injEq]
  constructor
  · rintro ⟨j,⟨member,named⟩,rfl,rfl⟩
    exact ⟨member,rfl,named⟩
  · rintro ⟨member,rfl,named⟩
    exact ⟨i,⟨member,named⟩,rfl,rfl⟩

theorem Window.naming {object : Object} (window : Window h first count) (intact : h.Intact) (made : allocate object h = .ok r h') :
    Naming h' (h.aliasesFor first count) (h.windowName first count) := by
  have registers := (allocate_roots made).registers
  -- Names are roots, so their texts are there after the allocation.
  have kept : ∀ i ∈ List.range' first count, ∀ text, h.text? (h.registerName i) = some text →
      h'.keyOf (h.registerName i) = some (.text text) := by
    intro i member text found
    obtain ⟨register,present⟩ := window.register member
    have root : h.IsRoot (h.registerName i) := by
      rw [registerName,Array.getD_eq_getD_getElem?,present]
      exact .name (Array.mem_of_getElem? present)
    exact keyOf_text.mpr (allocate_text intact made root found)
  have texts : ∀ name i, (name,i) ∈ (h.aliasesFor first count).bindings.toList →
      i ∈ List.range' first count ∧ ∃ text, h.text? (h.registerName i) = some text ∧ h'.keyOf name = some (.text text) := by
    intro name i member
    obtain ⟨inside,rfl,named⟩ := window.mem_bindings.mp member
    rcases window.texts i inside with free | full
    · rw [free] at named
      cases named
    · obtain ⟨text,found⟩ := Option.isSome_iff_exists.mp full
      exact ⟨inside,text,found,kept i inside text found⟩
  refine ⟨?_,?_,?_,fun i j k => window.different_names,?_⟩
  · intro i k
    constructor
    · intro named
      obtain ⟨inside,text,found,rfl⟩ := windowName_some.mp named
      exact ⟨_,window.mem_bindings.mpr ⟨inside,rfl,isNull_text found⟩,kept i inside text found⟩
    · rintro ⟨name,member,known⟩
      obtain ⟨inside,text,found,known'⟩ := texts name i member
      exact windowName_some.mpr ⟨inside,text,found,Option.some.inj (known'.symm.trans known)⟩
  · intro name i member
    obtain ⟨_,text,_,known⟩ := texts name i member
    exact ⟨text,known⟩
  · rw [aliasesFor_bindings,List.map_map]
    simpa [Function.comp_def] using (List.nodup_range' ..).filter _
  · intro i k named
    obtain ⟨inside,_⟩ := windowName_some.mp named
    obtain ⟨_,after⟩ := List.mem_range'_1.mp inside
    rw [registers]
    exact Nat.lt_of_lt_of_le after window.inside

theorem Window.reads (window : Window h first count) (named : h.windowName first count i = some k) :
    h.windowMap first count k = h.assigned? i := by
  obtain ⟨inside,text,found,rfl⟩ := windowName_some.mp named
  obtain ⟨register,present⟩ := window.register inside
  have held : h.assigned? i = some (h.registerValue i) := by
    simp only [registerName,registerValue,Array.getD_eq_getD_getElem?,present,Option.getD_some] at found ⊢
    simp only [assigned?,present,isNull_text found,Bool.false_eq_true,if_false]
  rw [held,windowMap]
  cases search : (List.range' first count).find? fun j => h.windowName first count j == some (.text text) with
  | none =>
      have missed := List.find?_eq_none.mp search i inside
      rw [named] at missed
      exact absurd BEq.rfl missed
  | some j =>
      have matched := List.find?_some search
      rw [Option.map_some,window.different_names named (eq_of_beq matched)]

theorem newAliasMap_overlays {h₀ h : Heap} (intact : h₀.Intact) (window : Window h₀ first count) (made : newAliasMap first count h₀ = .ok v h) :
    ∃ r table, v = .map r ∧ Overlays h r table (h₀.aliasesFor first count) (h₀.windowName first count) (fun _ => none)
      (h₀.windowMap first count) := by
  obtain ⟨r,result,rfl⟩ := map_ok made
  obtain ⟨s,_,_,installed⟩ := allocate_ok intact result
  refine ⟨r,_,rfl,⟨installed.object,(Table.withCapacity_valid 0).of_same rfl rfl,rfl,?_⟩,window.naming intact result,rfl,fun _ _ _ => rfl,?_,?_⟩
  · simpa [Table.withCapacity] using Lists.nil h
  · intro i k named
    rw [window.reads named,assigned?,assigned?,(allocate_roots result).registers]
  · intro k nameless
    rw [windowMap,Option.map_eq_none_iff,List.find?_eq_none]
    intro i _ matched
    exact nameless i (eq_of_beq matched)

-- A new map over registers shows the finite map of its window under every sequence of updates with
-- keys that are no containers and of values written to registers, and so it does once it has
-- gathered.
theorem aliasMap_views {h₀ h : Heap} (reachable : h₀.Reachable) (window : Window h₀ first count)
    (made : newAliasMap first count h₀ = .ok v h) (changes : List Change)
    (keyed : ∀ change ∈ changes, ∀ key, change.key? = some key → (h.keyOf key).isSome = true) :
    ∃ h', Change.performAll v changes h = .ok () h' ∧ (∀ w, h'.keyOf w = h.keyOf w) ∧
      Views h' v (changes.foldl (Change.applied h (h₀.windowName first count)) (h₀.windowMap first count)) := by
  obtain ⟨r,table,rfl,overlays⟩ := newAliasMap_overlays reachable.intact window made
  obtain ⟨h',table',rest',result,after,keys⟩ := overlays.performAll changes keyed
  exact ⟨h',result,keys,after.views⟩

-- A register file with a variable under a short name, one under an interned name, and a free register.
def namedRegisters : Heap :=
  [.resizeRegisters 3,.intern "accumulator",.assignRegister 0 (.shortText "x") (.int 1),
    .assignRegister 1 (.str ⟨0,0⟩) (.int 2)].foldl Call.run (.new {})

-- A value written while a name is unbound does not show, and a name that is bound again is read in
-- its register as before.
theorem aliasMap_views_rebound :
    ∃ h', Change.performAll (.map ⟨1,0⟩) [.write 1 (.int 5),.update (.remove (.shortText "x")),.write 0 (.int 9),
          .update (.set (.funcRef ⟨7,0⟩) (.int 3)),.update (.set (.shortText "x") (.int 4)),.write 2 (.int 6)]
        (after (newAliasMap 0 3) namedRegisters) = .ok () h' ∧
      h'.lookup? (.map ⟨1,0⟩) (.shortText "x") = some (.int 4) ∧ h'.lookup? (.map ⟨1,0⟩) (.str ⟨0,0⟩) = some (.int 5) ∧
      h'.lookup? (.map ⟨1,0⟩) (.funcRef ⟨7,0⟩) = some (.int 3) ∧ h'.lookup? (.map ⟨1,0⟩) .null = none ∧
      ∃ h'', gather (.map ⟨1,0⟩) h' = .ok () h'' ∧
        { h'' with registers := #[] }.lookup? (.map ⟨1,0⟩) (.shortText "x") = some (.int 4) := by
  have reachable : namedRegisters.Reachable := Reachable.calls _ (.new {})
  have window : Window namedRegisters 0 3 := ⟨by decide +kernel,by decide +kernel,by decide +kernel⟩
  obtain ⟨h',result,keys,views⟩ := aliasMap_views reachable window
    (show newAliasMap 0 3 namedRegisters = .ok (.map ⟨1,0⟩) (after (newAliasMap 0 3) namedRegisters) from rfl)
    [.write 1 (.int 5),.update (.remove (.shortText "x")),.write 0 (.int 9),.update (.set (.funcRef ⟨7,0⟩) (.int 3)),
      .update (.set (.shortText "x") (.int 4)),.write 2 (.int 6)] (by decide +kernel)
  obtain ⟨h'',gathered,_,shows⟩ := views.gathers
  refine ⟨h',result,?_,?_,?_,?_,h'',gathered,?_⟩
  · rw [views.answers.lookup? _ (.text "x") (by rw [keys]; decide +kernel)]
    decide +kernel
  · rw [views.answers.lookup? _ (.text "accumulator") (by rw [keys]; decide +kernel)]
    decide +kernel
  · rw [views.answers.lookup? _ (.function ⟨7,0⟩) (by rw [keys]; rfl)]
    decide +kernel
  · rw [views.answers.lookup? _ .null (by rw [keys]; rfl)]
    decide +kernel
  · rw [(shows #[]).1.lookup? _ (.text "x") rfl]
    decide +kernel

end RegisterMachine.Heap
