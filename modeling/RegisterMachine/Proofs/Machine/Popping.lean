import RegisterMachine.Proofs.Map.Retrieval
import RegisterMachine.Proofs.Machine.Visibility

namespace RegisterMachine.Machine

variable {m : Machine} {table : Table} {base : Nat}

-- Pops and pulls of one map, one after the other, and the keys that they answer with.
def takeKeys (base : Nat) (methods : List Intrinsic) : MachineM (List Value) := methods.mapM fun method => runNative (.intrinsic method) base

theorem takes_native (this : m.heap.registerValue (base + 1) = .map r) (method : way = .pop ∨ way = .pull) :
    runNative (.intrinsic way) base m = onHeap (Heap.takeFirstKey (.map r)) m := by
  rcases method with rfl | rfl
  · change onHeap (Heap.popFrom (m.heap.registerValue (base + 1))) m = _
    rw [this]
    rfl
  · change onHeap (Heap.pullFrom (m.heap.registerValue (base + 1))) m = _
    rw [this]
    rfl

theorem takes_first (emptiable : m.heap.Emptiable r table) (this : m.heap.registerValue (base + 1) = .map r)
    (first : m.heap.mapEntries (.map r) = pair :: rest) (method : way = .pop ∨ way = .pull) :
    runNative (.intrinsic way) base m = .ok pair.1 { m with heap := Heap.after (Heap.mapRemove (.map r) pair.1) m.heap } := by
  rw [takes_native this method,onHeap]
  simp only [emptiable.takes first]

theorem takes_along (methods : List Intrinsic) (draining : m.heap.Draining r table) (this : m.heap.registerValue (base + 1) = .map r)
    (ways : ∀ way ∈ methods, way = .pop ∨ way = .pull) (enough : methods.length ≤ (m.heap.mapEntries (.map r)).length) :
    ∃ gone h' table', takeKeys base methods m = .ok (gone.map Prod.fst) { m with heap := h' } ∧ gone.length = methods.length ∧
      m.heap.Without r table gone h' table' ∧ h'.Draining r table' := by
  induction methods generalizing m table with
  | nil => exact ⟨[],m.heap,table,rfl,rfl,draining.without_nothing,draining⟩
  | cons way methods ih =>
      cases listed : m.heap.mapEntries (.map r) with
      | nil =>
          rw [listed] at enough
          cases enough
      | cons pair rest =>
          obtain ⟨table',without,draining'⟩ := draining.pops (listed ▸ List.mem_cons_self)
          have taken := takes_first draining.toEmptiable this listed (ways way List.mem_cons_self)
          generalize Heap.after (Heap.mapRemove (.map r) pair.1) m.heap = s at without draining' taken
          have fewer := without.listed.length_eq
          rw [List.length_append,List.length_singleton] at fewer
          rw [List.length_cons] at enough
          obtain ⟨gone,h',table'',result,count,later,drained⟩ := ih (m := { m with heap := s }) draining'
            ((without.values (base + 1)).trans this) (fun way member => ways way (List.mem_cons_of_mem _ member)) (by
              change methods.length ≤ (s.mapEntries (.map r)).length
              omega)
          refine ⟨pair :: gone,h',table'',?_,by rw [List.length_cons,List.length_cons,count],without.trans later,drained⟩
          unfold takeKeys at result ⊢
          rw [List.mapM_cons]
          simp only [bind,EStateM.bind,taken,result]
          rfl

theorem Reachable.emptiable (reachable : m.Reachable) (object : m.heap.object? r = some (.map table)) (unfrozen : table.frozen = false) :
    m.heap.Emptiable r table :=
  ⟨object,reachable.secure.safe.table object,unfrozen,reachable.secure.safe.opened⟩

-- A pop answers with the first key of any map, and takes its entry alone exactly when removing the key does.
-- A map in which every listed key takes its own entry, and no key contains the map, loses an entry with every
-- pop until none is left; such are the maps with no containers for keys that show each key once, unless a
-- register goes by two names.
theorem pops_drain (reachable : m.Reachable) (object : m.heap.object? r = some (.map table)) (unfrozen : table.frozen = false)
    (this : m.heap.registerValue (base + 1) = .map r) :
    (∀ pair rest, m.heap.mapEntries (.map r) = pair :: rest → ∃ h',
      (∀ way, way = .pop ∨ way = .pull → runNative (.intrinsic way) base m = .ok pair.1 { m with heap := h' }) ∧
      (m.heap.mapEntries (.map r)).Perm (m.heap.taken table pair.1 ++ h'.mapEntries (.map r)) ∧
      m.heap.mapCount (.map r) = (m.heap.taken table pair.1).length + h'.mapCount (.map r) ∧
      ((m.heap.mapEntries (.map r)).Perm (pair :: h'.mapEntries (.map r)) ↔ m.heap.taken table pair.1 = [pair])) ∧
    (m.heap.Retrievable r table → (∀ entry ∈ table.entries, m.heap.Aloof r entry.key) →
      ∀ methods, (∀ way ∈ methods, way = .pop ∨ way = .pull) → methods.length ≤ m.heap.mapCount (.map r) →
        ∃ gone h', takeKeys base methods m = .ok (gone.map Prod.fst) { m with heap := h' } ∧ gone.length = methods.length ∧
          (m.heap.mapEntries (.map r)).Perm (gone ++ h'.mapEntries (.map r)) ∧
          h'.mapCount (.map r) = m.heap.mapCount (.map r) - methods.length ∧
          (∀ pair ∈ gone, h'.lookup? (.map r) pair.1 = none) ∧
          ∀ pair ∈ h'.mapEntries (.map r), h'.lookup? (.map r) pair.1 = some pair.2 ∧ m.heap.lookup? (.map r) pair.1 = some pair.2) ∧
    ((∀ binding ∈ table.bound, binding.1.isString = true) → (∀ entry ∈ table.entries, entry.key.isList = false ∧ entry.key.isMap = false) →
      (table.bound.map Prod.snd).Nodup → m.heap.ShowsOnce (.map r) →
        m.heap.Retrievable r table ∧ ∀ entry ∈ table.entries, m.heap.Aloof r entry.key) := by
  have emptiable := reachable.emptiable object unfrozen
  refine ⟨?_,?_,?_⟩
  · intro pair rest listed
    obtain ⟨table',without⟩ := emptiable.removes pair.1
    refine ⟨_,fun way method => takes_first emptiable this listed method,without.listed,?_,fun alone => ?_,fun alone => ?_⟩
    · rw [emptiable.counts,without.counts,without.listed.length_eq,List.length_append]
    · have same := without.listed.symm.trans alone
      rw [← List.singleton_append,List.perm_append_right_iff] at same
      exact List.perm_singleton.mp same
    · have listed := without.listed
      rwa [alone,List.singleton_append] at listed
  · intro retrievable aloof methods ways enough
    have draining : m.heap.Draining r table := ⟨emptiable,retrievable.arranged emptiable,aloof⟩
    rw [emptiable.counts] at enough
    obtain ⟨gone,h',table',result,count,without,drained⟩ := takes_along methods draining this ways enough
    have kept : ∀ pair ∈ h'.mapEntries (.map r), pair ∈ m.heap.mapEntries (.map r) :=
      fun pair listed => without.listed.mem_iff.mpr (List.mem_append_right _ listed)
    refine ⟨gone,h',result,count,without.listed,?_,fun pair member => ?_,fun pair listed => ⟨?_,?_⟩⟩
    · rw [emptiable.counts,drained.counts,without.listed.length_eq,List.length_append,count,Nat.add_sub_cancel_left]
    · exact without.forgets object draining.toArranged emptiable aloof member
    · exact drained.toArranged.lookup drained.toEmptiable listed
    · exact draining.toArranged.lookup emptiable (kept pair listed)
  · intro names keys registers shows
    refine ⟨shows.retrievable (reachable.worded object names keys) emptiable registers,fun entry member => ?_⟩
    obtain ⟨list,map⟩ := keys entry member
    exact Heap.aloof_scalar list map

-- A map with a number and a list for keys; the list takes another item in the end.
def popping : Program where
  functions := [
    { name := "@main",registers := some 4,parameters := [],constants := []
      code := [.named "MAP_rA_iBC" [1,0],.named "LIST_rA_iBC" [2,0],.named "LOAD_rA_iBC" [3,7],.named "IDXSET_rA_rB_rC" [1,2,3],
        .named "IDXSET_rA_rB_rC" [1,3,2],.named "PUSH_rA_rB" [2,3],.named "RETURN" []] }]

theorem popping_runs : ∃ m m' : Machine, m.Reachable ∧ m'.Reachable ∧
    (∀ n ∈ [m,m'], n.heap.registerValue (n.base + 1) = .map ⟨50,0⟩ ∧
      n.heap.mapEntries (.map ⟨50,0⟩) = [(.int 7,.list ⟨51,0⟩),(.list ⟨51,0⟩,.int 7)] ∧ n.heap.mapCount (.map ⟨50,0⟩) = 2 ∧
      n.heap.isFrozen (.map ⟨50,0⟩) = false) ∧
    ((m.heap.table? (.map ⟨50,0⟩)).map fun table =>
      (table.frozen,table.entries.map Entry.key,m.heap.taken table (.int 7),m.heap.taken table (.list ⟨51,0⟩))) =
        some (false,[.int 7,.list ⟨51,0⟩],[(.int 7,.list ⟨51,0⟩)],[(.list ⟨51,0⟩,.int 7)]) ∧
    m.heap.sameKey (.int 7) (.list ⟨51,0⟩) = false ∧ m.heap.sameKey (.list ⟨51,0⟩) (.int 7) = false ∧ m.heap.parts (.list ⟨51,0⟩) = [] ∧
    ((result? (takeKeys m'.base [.pop,.pull] m')).map fun out => (out.1,out.2.heap.mapEntries (.map ⟨50,0⟩))) =
      some ([.int 7,.list ⟨51,0⟩],[(.list ⟨51,0⟩,.int 7)]) := by
  have loaded : (Machine.load (.new { stackSlots := 4 }) popping true).Reachable := .load popping true (.new _)
  refine ⟨_,_,loaded.run 5,loaded.run 6,?_⟩
  decide +kernel

theorem pops_drain_list : ∃ (m m' : Machine) (r q : Handle) (keys : List Value), m.Reachable ∧
    (m.heap.mapEntries (.map r)).map Prod.fst = [.int 7,.list q] ∧ takeKeys m.base [.pop,.pull] m = .ok keys m' ∧ keys.Perm [.int 7,.list q] ∧
    m'.heap.mapCount (.map r) = 0 := by
  obtain ⟨m,_,reachable,_,both,read,apart,apart',empty,_⟩ := popping_runs
  obtain ⟨this,entries,count,_⟩ := both m List.mem_cons_self
  obtain ⟨table,found,read⟩ := Option.map_eq_some_iff.mp read
  simp only [Prod.mk.injEq] at read
  obtain ⟨unfrozen,keys,number,list⟩ := read
  obtain ⟨_,same,object⟩ := Heap.table?_object.mp found
  cases same
  have retrievable : m.heap.Retrievable ⟨50,0⟩ table := by
    refine ⟨?_,?_⟩ <;> rw [entries]
    · simp [apart,apart']
    · simp [number,list]
  have aloof : ∀ entry ∈ table.entries, m.heap.Aloof ⟨50,0⟩ entry.key := by
    intro entry member
    have key : entry.key ∈ [Value.int 7,.list ⟨51,0⟩] := keys ▸ List.mem_map.mpr ⟨entry,member,rfl⟩
    rcases List.mem_cons.mp key with here | here
    · rw [here]
      exact Heap.aloof_scalar rfl rfl
    · rw [List.mem_singleton.mp here]
      intro w inside other held
      have only : w ∈ [Value.list ⟨51,0⟩] := Heap.inside_among (fun v member u part => by
        rw [List.mem_singleton.mp member,empty] at part
        cases part) List.mem_cons_self inside
      rw [List.mem_singleton.mp only] at held
      cases held
  obtain ⟨gone,h',result,length,listed,left,_⟩ := (pops_drain reachable object unfrozen this).2.1 retrievable aloof [.pop,.pull]
    (by simp) (by rw [count]; decide)
  have none_ : h'.mapEntries (.map ⟨50,0⟩) = [] := by
    have lengths := listed.length_eq
    rw [entries,List.length_append,length] at lengths
    exact List.eq_nil_of_length_eq_zero (by simpa using lengths)
  rw [none_,List.append_nil,entries] at listed
  refine ⟨m,_,⟨50,0⟩,⟨51,0⟩,_,reachable,by rw [entries]; rfl,result,(listed.map Prod.fst).symm,?_⟩
  rw [left,count]
  rfl

-- A list that has changed since it became a key is not found, and the map keeps the entry that the last pop answers with.
theorem pops_stall : ∃ (m m' : Machine) (r q : Handle), m.Reachable ∧ m.heap.registerValue (m.base + 1) = .map r ∧
    m.heap.isFrozen (.map r) = false ∧ m.heap.mapEntries (.map r) = [(.int 7,.list q),(.list q,.int 7)] ∧
    takeKeys m.base [.pop,.pull] m = .ok [.int 7,.list q] m' ∧ m'.heap.mapEntries (.map r) = [(.list q,.int 7)] := by
  obtain ⟨_,m,_,reachable,both,_,_,_,_,popped⟩ := popping_runs
  obtain ⟨this,entries,_,unfrozen⟩ := both m (List.mem_cons_of_mem _ List.mem_cons_self)
  obtain ⟨⟨keys,m'⟩,result,left⟩ := Option.map_eq_some_iff.mp popped
  obtain ⟨rfl,kept⟩ := Prod.mk.inj left
  exact ⟨m,m',⟨50,0⟩,⟨51,0⟩,reachable,this,unfrozen,entries,result?_some result,kept⟩

end RegisterMachine.Machine
