import RegisterMachine.Proofs.Heap.Retention

namespace RegisterMachine.Heap

-- Whether calls close the scopes that they open, and, given how many are open, no others.
def nests : Nat → List Call → Bool
  | depth, [] => depth == 0
  | depth, .pushScope :: rest => nests (depth + 1) rest
  | 0, .popScope :: _ => false
  | depth + 1, .popScope :: rest => nests depth rest
  | depth, _ :: rest => nests depth rest

-- The values that are protected in each open scope and not released yet, the innermost scope first.
def Call.protects (levels : List (List Value)) (call : Call) : List (List Value) :=
  match call, levels with
  | protect v, level :: outer => (v :: level) :: outer
  | unprotect, level :: outer => level.tail :: outer
  | pushScope, levels => [] :: levels
  | popScope, _ :: outer => outer
  | _, levels => levels

def openLevels (calls : List Call) : List (List Value) := calls.foldl Call.protects [[]]

-- Where scopes start: above everything that is protected outside.
def levelStarts (floor : Nat) : List (List Value) → List Nat
  | [] => []
  | _ :: outer => (outer.flatten.length + floor) :: levelStarts floor outer

-- A heap in scopes that were opened in another one.
structure InScopes (h : Heap) (levels : List (List Value)) (t : Heap) : Prop where
  shadow : t.shadow = levels.flatten ++ h.shadow
  scopes : t.scopes = levelStarts h.shadow.length levels ++ h.scopes
  intact : t.Intact
  grounded : t.Grounded

section

variable {h t : Heap} {level : List Value} {outer : List (List Value)}

theorem InScopes.floor (inside : InScopes h (level :: outer) t) : t.scopes.headD 0 = outer.flatten.length + h.shadow.length := by
  rw [inside.scopes,levelStarts,List.cons_append,List.headD_cons]

-- Releasing stops where the innermost scope starts.
theorem InScopes.release (inside : InScopes h (level :: outer) t) :
    t.unprotect.1 = level.head? ∧ t.unprotect.2.shadow = (level.tail :: outer).flatten ++ h.shadow ∧
      t.unprotect.2.scopes = t.scopes := by
  have shadow := inside.shadow
  have floor := inside.floor
  rw [List.flatten_cons,List.append_assoc] at shadow ⊢
  cases level with
  | nil =>
      have kept : t.unprotect = (none,t) := by
        have height : t.shadow.length = t.scopes.headD 0 := by rw [floor,shadow,List.nil_append,List.length_append]
        unfold unprotect
        split
        · exact if_neg (by omega)
        · rfl
      rw [kept]
      exact ⟨rfl,shadow,rfl⟩
  | cons v level =>
      have above : t.shadow.length > t.scopes.headD 0 := by
        rw [floor,shadow]
        simp only [List.cons_append,List.length_cons,List.length_append]
        omega
      have released : t.unprotect = (some v,{ t with shadow := level ++ (outer.flatten ++ h.shadow) }) := by
        rw [List.cons_append] at shadow
        simp only [unprotect,shadow] at above ⊢
        exact if_pos above
      rw [released]
      exact ⟨rfl,rfl,rfl⟩

theorem InScopes.close (inside : InScopes h (level :: outer) t) :
    t.popScope.shadow = outer.flatten ++ h.shadow ∧ t.popScope.scopes = levelStarts h.shadow.length outer ++ h.scopes := by
  have scopes := inside.scopes
  rw [levelStarts,List.cons_append] at scopes
  simp only [popScope,scopes,and_true]
  rw [inside.shadow,List.flatten_cons,List.append_assoc]
  exact List.drop_left' (by simp only [List.length_append]; omega)

theorem InScopes.call (inside : InScopes h (level :: outer) t) (call : Call) :
    InScopes h (call.protects (level :: outer)) (call.run t) := by
  have intact := (call.steps t).intact inside.intact
  have grounded := call.grounded inside.grounded
  cases apart : call.scopes with
  | false =>
      have balanced := Call.balanced apart inside.grounded
      have same : call.protects (level :: outer) = level :: outer := by
        cases call <;> first | rfl | cases apart
      rw [same]
      exact ⟨balanced.shadow.trans inside.shadow,balanced.scopes.trans inside.scopes,intact,grounded⟩
  | true =>
      cases call with
      | protect v => exact ⟨congrArg (v :: ·) inside.shadow,inside.scopes,intact,grounded⟩
      | unprotect =>
          obtain ⟨_,shadow,scopes⟩ := inside.release
          exact ⟨shadow,scopes.trans inside.scopes,intact,grounded⟩
      | pushScope =>
          refine ⟨inside.shadow,?_,intact,grounded⟩
          rw [Call.run,pushScope,inside.shadow,inside.scopes,List.length_append]
          rfl
      | popScope => exact ⟨inside.close.1,inside.close.2,intact,grounded⟩
      | _ => cases apart

theorem InScopes.calls (inside : InScopes h (level :: outer) t) (done rest : List Call)
    (nested : nests outer.length (done ++ rest) = true) :
    ∃ level' outer', done.foldl Call.protects (level :: outer) = level' :: outer' ∧ nests outer'.length rest = true ∧
      InScopes h (level' :: outer') (done.foldl Call.run t) := by
  induction done generalizing t level outer with
  | nil => exact ⟨level,outer,rfl,nested,inside⟩
  | cons call done ih =>
      have next := inside.call call
      have follows level' outer' (same : call.protects (level :: outer) = level' :: outer')
          (nested : nests outer'.length (done ++ rest) = true) :
          ∃ level' outer', (call :: done).foldl Call.protects (level :: outer) = level' :: outer' ∧ nests outer'.length rest = true ∧
            InScopes h (level' :: outer') ((call :: done).foldl Call.run t) := by
        rw [List.foldl_cons,List.foldl_cons,same]
        exact ih (same ▸ next) nested
      cases call with
      | protect v => exact follows (v :: level) outer rfl nested
      | unprotect => exact follows level.tail outer rfl nested
      | pushScope => exact follows [] (level :: outer) rfl nested
      | popScope =>
          cases outer with
          | nil => cases nested
          | cons level' outer' => exact follows level' outer' rfl nested
      | _ => exact follows level outer rfl nested

theorem pushScope_inScopes (intact : h.Intact) (grounded : h.Grounded) : InScopes h [[]] h.pushScope where
  shadow := rfl
  scopes := by
    rw [pushScope]
    exact congrArg (· :: h.scopes) (Nat.zero_add _).symm
  intact := (Step.apart (pushScope_apart h)).intact intact
  grounded := pushScope_grounded grounded

theorem InScopes.kept {levels : List (List Value)} (inside : InScopes h levels t) (member : v ∈ levels.flatten) :
    t.IsRoot v ∧ ∀ r, v.handle? = some r → t.isLive r = true →
      t.collect.2.object? r = t.object? r ∧ ∀ call : Call, (call.run t).isLive r = true := by
  have root : t.IsRoot v := .shadow (by rw [inside.shadow]; exact List.mem_append_left _ member)
  refine ⟨root,fun r handle live => ?_⟩
  have survives : t.Survives r := Or.inr (.root root handle live)
  exact ⟨(collect_extends inside.intact).objects r survives,fun call => call.retains inside.intact r survives live⟩

-- A scope that closes leaves what was protected before, and the scopes, as it found them. Inside it only
-- what was protected in the innermost scope is released, and what is protected stays.
theorem scopes_bracketed : (∀ h, Reachable h → h.Intact ∧ h.Grounded) ∧
    ∀ h : Heap, h.Intact → h.Grounded → ∀ calls, nests 0 calls = true →
      Balanced h (calls.foldl Call.run h.pushScope).popScope ∧
      ∀ done rest, calls = done ++ rest →
        let t := done.foldl Call.run h.pushScope
        openLevels done ≠ [] ∧ t.shadow = (openLevels done).flatten ++ h.shadow ∧
        t.unprotect.1 = ((openLevels done).headD []).head? ∧ h.shadow <:+ t.unprotect.2.shadow ∧
        ∀ v ∈ (openLevels done).flatten, t.IsRoot v ∧ ∀ r, v.handle? = some r → t.isLive r = true →
          t.collect.2.object? r = t.object? r ∧ ∀ call : Call, (call.run t).isLive r = true := by
  refine ⟨fun h reachable => ⟨reachable.intact,reachable.grounded⟩,fun h intact grounded calls nested => ⟨?_,?_⟩⟩
  · obtain ⟨level,outer,_,closed,inside⟩ := (pushScope_inScopes intact grounded).calls calls [] (by rwa [List.append_nil])
    -- Nothing but the scope around the calls is open in the end.
    cases outer with
    | nil => exact ⟨inside.close.2,inside.close.1⟩
    | cons => cases closed
  · rintro done rest rfl
    obtain ⟨level,outer,same,_,inside⟩ := (pushScope_inScopes intact grounded).calls done rest nested
    have these : openLevels done = level :: outer := same
    obtain ⟨first,shadow,_⟩ := inside.release
    intro t
    rw [these]
    exact ⟨List.cons_ne_nil _ _,inside.shadow,first,shadow ▸ List.suffix_append _ _,fun v member => inside.kept member⟩

-- A scope in a scope that protects a list: what is released in the inner one is its own value only, and
-- the list outlives a collection.
theorem scopes_bracketed_nested :
    ∃ h, Reachable h ∧ h.shadow = [.int 1] ∧ ∃ done : List Call, nests 0 (done ++ [.popScope]) = true ∧
      openLevels done = [[],[.list ⟨0,0⟩]] ∧ (done.foldl Call.run h.pushScope).unprotect.1 = none ∧
      ((done ++ [Call.collect]).foldl Call.run h.pushScope).isLive ⟨0,0⟩ = true ∧
      Balanced h ((done ++ [Call.popScope]).foldl Call.run h.pushScope).popScope := by
  have reachable := Reachable.calls [.protect (.int 1)] (.new {})
  obtain ⟨sound,brackets⟩ := scopes_bracketed
  obtain ⟨intact,grounded⟩ := sound _ reachable
  obtain ⟨balanced,points⟩ := brackets _ intact grounded
    ([.newList 0,.protect (.list ⟨0,0⟩),.pushScope,.protect (.int 2),.unprotect,.unprotect] ++ [.popScope]) rfl
  obtain ⟨_,_,first,_,kept⟩ := points _ _ rfl
  refine ⟨_,reachable,rfl,_,rfl,rfl,first,?_,balanced⟩
  rw [List.foldl_append]
  exact ((kept (.list ⟨0,0⟩) (by decide)).2 ⟨0,0⟩ rfl (by decide +kernel)).2 .collect

end

end RegisterMachine.Heap
