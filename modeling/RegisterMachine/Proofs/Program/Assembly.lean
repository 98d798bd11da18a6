import RegisterMachine.Proofs.Function.Reservation
import RegisterMachine.Proofs.Heap.Canonical
import RegisterMachine.Proofs.Program.Lasting

namespace RegisterMachine

namespace Opcode

def Matches (op : Opcode) (mnemonic : String) : Prop := Text.equalIgnoringCase op.mnemonic mnemonic = true

instance (op : Opcode) (mnemonic : String) : Decidable (op.Matches mnemonic) :=
  inferInstanceAs (Decidable (Text.equalIgnoringCase op.mnemonic mnemonic = true))

theorem matches_fold {op : Opcode} {mnemonic : String} :
    op.Matches mnemonic ↔ op.mnemonic.toList.map Char.toLower = mnemonic.toList.map Char.toLower := by
  rw [Matches,Text.equalIgnoringCase,beq_iff_eq]

theorem mnemonics_apart : (all.toList.map fun op => op.mnemonic.toList.map Char.toLower).Nodup := by decide +kernel

theorem ofMnemonic?_matches {op : Opcode} {mnemonic : String} (found : ofMnemonic? mnemonic = some op) : op.Matches mnemonic := by
  unfold ofMnemonic? at found
  have matching := List.find?_some found
  exact matching

theorem ofMnemonic?_some {op : Opcode} {mnemonic : String} : ofMnemonic? mnemonic = some op ↔ op.Matches mnemonic := by
  constructor
  · exact ofMnemonic?_matches
  · intro known
    cases found : ofMnemonic? mnemonic with
    | none =>
        unfold ofMnemonic? at found
        exact absurd known (List.find?_eq_none.mp found op op.mem_all)
    | some other =>
        have same := (matches_fold.mp (ofMnemonic?_matches found)).trans (matches_fold.mp known).symm
        rw [List.inj_on_of_nodup_map mnemonics_apart other.mem_all op.mem_all same]

theorem ofMnemonic?_none {mnemonic : String} : ofMnemonic? mnemonic = none ↔ ∀ op : Opcode, ¬ op.Matches mnemonic := by
  constructor
  · intro missing op known
    rw [ofMnemonic?_some.mpr known] at missing
    cases missing
  · intro none
    cases found : ofMnemonic? mnemonic with
    | none => rfl
    | some op => exact absurd (ofMnemonic?_some.mp found) (none op)

end Opcode

namespace Heap

-- A value of a text that never goes away: the text itself if it is short, else the interned string.
def Inscribed (h : Heap) (text : String) (v : Value) : Prop :=
  (∃ t : ShortText, v = .short t ∧ t.text = text) ∨ ∃ r, v = .str r ∧ h.interned.get? text = some r

def Stands (h : Heap) (text : String) (v : Value) : Prop := h.text? v = some text ∧ h.Permanent v

theorem Inscribed.later {h h' : Heap} (inscribed : h.Inscribed text v) (steps : Steps h h') (intact : h.Intact) : h'.Inscribed text v := by
  rcases inscribed with short | ⟨r,same,found⟩
  · exact Or.inl short
  · exact Or.inr ⟨r,same,steps.known intact found⟩

theorem Inscribed.stands {h : Heap} (inscribed : h.Inscribed text v) (intact : h.Intact) : h.Stands text v := by
  rcases inscribed with ⟨t,rfl,rfl⟩ | ⟨r,rfl,found⟩
  · exact ⟨rfl,Or.inl rfl⟩
  · obtain ⟨interned,present⟩ := intact.listed found
    exact ⟨text?_str.mpr present,Or.inr ⟨r,rfl,isInterned_immortal.mp interned⟩⟩

theorem intern_inscribed {h : Heap} (text : String) (intact : h.Intact) : (h.intern text).2.Inscribed text (h.intern text).1 := by
  rcases intern_cases text intact with ⟨t,here,same⟩ | ⟨r,found,same⟩ | ⟨r,h',same,rest⟩
  · rw [same]
    exact Or.inl ⟨t,rfl,here⟩
  · rw [same]
    exact Or.inr ⟨r,rfl,found⟩
  · obtain ⟨_,_,interned,_⟩ := rest
    rw [same]
    refine Or.inr ⟨r,rfl,?_⟩
    rw [interned,Std.TreeMap.get?_eq_getElem?,Std.TreeMap.getElem?_insert_self]

end Heap

namespace Program

-- What can be refused in a function.
inductive Item where
  | value (data : Json.Data)
  | instruction (position : Nat) (instruction : InstructionText)

-- An array or an object is no constant.
def Constant : Json.Data → Prop
  | .array _ | .object _ => False
  | _ => True

def Item.Sound : Item → Prop
  | .value data => Constant data
  | .instruction _ (.word _) => True
  | .instruction _ (.named mnemonic operands) => ∃ op word, Opcode.Matches op mnemonic ∧ Instruction.encode op operands = .ok word

-- The error about an item that is not sound.
def Item.Refused (function : String) : Item → ProgramError → Prop
  | .value data, e => ¬ Constant data ∧ e = .unsupportedConstant function data.compact
  | .instruction _ (.word _), _ => False
  | .instruction position (.named mnemonic operands), e =>
    (∀ op, ¬ Opcode.Matches op mnemonic) ∧ e = .unknownMnemonic function position mnemonic ∨
      ∃ op cause, Opcode.Matches op mnemonic ∧ Instruction.encode op operands = .error cause ∧ e = .encoding function position cause

theorem Item.Refused.unsound {item : Item} (refused : item.Refused function e) : ¬ item.Sound := by
  intro sound
  cases item with
  | value data => exact refused.1 sound
  | instruction position instruction =>
      cases instruction with
      | word word => exact refused
      | named mnemonic operands =>
          obtain ⟨op,word,known,encoded⟩ := sound
          rcases refused with ⟨unknown,_⟩ | ⟨other,cause,named,failed,_⟩
          · exact unknown op known
          · have same := (Opcode.ofMnemonic?_some.mpr known).symm.trans (Opcode.ofMnemonic?_some.mpr named)
            cases Option.some.inj same
            rw [encoded] at failed
            cases failed

-- Instructions from a position on.
def codeItems (position : Nat) (code : List InstructionText) : List Item :=
  (code.zipIdx position).map fun entry => .instruction entry.2 entry.1

-- The items of a function and of a program in the order in which they are looked at, with the names of functions.
def functionItems (f : FunctionText) : List (String × Item) :=
  (f.parameters.map (Item.value ·.default) ++ codeItems 0 f.code ++ f.constants.map Item.value).map (f.name,·)

def items (p : Program) : List (String × Item) := p.functions.flatMap functionItems

-- An error about the first item that is not sound.
def Offends (items : List (String × Item)) (e : ProgramError) : Prop :=
  ∃ before function item after, items = before ++ (function,item) :: after ∧ (∀ entry ∈ before, entry.2.Sound) ∧ item.Refused function e

theorem Offends.before {items : List (String × Item)} (offends : Offends items e) (sound : ∀ entry ∈ earlier, entry.2.Sound) :
    Offends (earlier ++ items) e := by
  obtain ⟨before,function,item,after,rfl,fine,refused⟩ := offends
  refine ⟨earlier ++ before,function,item,after,by simp,fun entry member => ?_,refused⟩
  rcases List.mem_append.mp member with member | member
  · exact sound entry member
  · exact fine entry member

theorem Offends.after {items : List (String × Item)} (offends : Offends items e) (later : List (String × Item)) :
    Offends (items ++ later) e := by
  obtain ⟨before,function,item,after,rfl,fine,refused⟩ := offends
  exact ⟨before,function,item,after ++ later,by simp,fine,refused⟩

theorem Offends.unsound {items : List (String × Item)} (offends : Offends items e) : ¬ ∀ entry ∈ items, entry.2.Sound := by
  obtain ⟨before,function,item,after,rfl,_,refused⟩ := offends
  intro sound
  exact refused.unsound (sound (function,item) (by simp))

theorem Offends.single {item : Item} (refused : item.Refused function e) : Offends [(function,item)] e :=
  ⟨[],function,item,[],rfl,fun _ member => absurd member List.not_mem_nil,refused⟩

-- Building checks its items in order, and a result satisfies `post`.
def Checks (operation : BuildM α) (h : Heap) (items : List (String × Item)) (post : α → Heap → Prop) : Prop :=
  match operation h with
  | .ok a s => Heap.Steps h s ∧ (∀ entry ∈ items, entry.2.Sound) ∧ post a s
  | .error e _ => Offends items e

variable {h : Heap}

theorem Checks.pure {a : α} {post : α → Heap → Prop} (holds : post a h) : Checks (Pure.pure a) h [] post :=
  ⟨.refl,fun _ member => absurd member List.not_mem_nil,holds⟩

theorem Checks.bind {first : BuildM α} {rest : α → BuildM β} {middle : α → Heap → Prop} {post : β → Heap → Prop}
    (checks : Checks first h earlier middle) (follows : ∀ a s, Heap.Steps h s → middle a s → Checks (rest a) s later post) :
    Checks (first >>= rest) h (earlier ++ later) post := by
  unfold Checks at checks
  cases result : first h with
  | error e s =>
      rw [result] at checks
      simpa only [Checks,Bind.bind,EStateM.bind,result] using checks.after later
  | ok a s =>
      rw [result] at checks
      obtain ⟨steps,sound,holds⟩ := checks
      have next := follows a s steps holds
      simp only [Checks,Bind.bind,EStateM.bind,result] at next ⊢
      split at next
      · obtain ⟨more,fine,final⟩ := next
        refine ⟨steps.trans more,fun entry member => ?_,final⟩
        rcases List.mem_append.mp member with member | member
        · exact sound entry member
        · exact fine entry member
      · exact next.before sound

theorem Checks.imp {operation : BuildM α} {middle post : α → Heap → Prop} {entries : List (String × Item)}
    (checks : Checks operation h entries middle)
    (follows : ∀ a s, middle a s → post a s) : Checks operation h entries post := by
  unfold Checks at checks ⊢
  split
  · rename_i a s result
    rw [result] at checks
    exact ⟨checks.1,checks.2.1,follows a s checks.2.2⟩
  · rename_i e s result
    rw [result] at checks
    exact checks

-- The value of a constant. What a text becomes is left open.
inductive Translates (stands : String → Value → Prop) : Json.Data → Value → Prop where
  | null : Translates stands .null .null
  | bool : Translates stands (.bool b) (.ofBool b)
  | int : Value.fitsInt i = true → Translates stands (.number (.integer i)) (.int (Int32.ofInt i))
  | large : Value.fitsInt i = false → Translates stands (.number (.integer i)) (.number (.ofInt i))
  | double : Translates stands (.number (.double d)) (.number d)
  | text : stands text v → Translates stands (.string text) v

theorem Translates.imp {stands stands' : String → Value → Prop} (translates : Translates stands data v)
    (still : ∀ text v, stands text v → stands' text v) : Translates stands' data v := by
  cases translates with
  | null => exact .null
  | bool => exact .bool
  | int fits => exact .int fits
  | large wide => exact .large wide
  | double => exact .double
  | text holds => exact .text (still _ _ holds)

def Declared (stands : String → Value → Prop) (p : ParameterText) (q : Parameter) : Prop :=
  stands p.name q.name ∧ Translates stands p.default q.default

def Coded : InstructionText → Word → Prop
  | .word given, word => word = given
  | .named mnemonic operands, word => ∃ op, Opcode.Matches op mnemonic ∧ Instruction.encode op operands = .ok word

structure Assembled (stands : String → Value → Prop) (f : FunctionText) (g : Function) : Prop where
  name : g.name = f.name
  parameters : List.Forall₂ (Declared stands) f.parameters g.parameters.toList
  code : List.Forall₂ Coded f.code g.code.toList
  constants : List.Forall₂ (Translates stands) f.constants g.constants.toList
  registers : ∀ count, f.registers = some count → count ≤ g.registers
  native : g.native = none

theorem Assembled.imp {stands stands' : String → Value → Prop} {f : FunctionText} {g : Function} (assembled : Assembled stands f g)
    (still : ∀ text v, stands text v → stands' text v) : Assembled stands' f g where
  name := assembled.name
  parameters := assembled.parameters.imp fun _ _ declared => ⟨still _ _ declared.1,declared.2.imp still⟩
  code := assembled.code
  constants := assembled.constants.imp fun _ _ translates => translates.imp still
  registers := assembled.registers
  native := assembled.native

theorem forall₂_push {related : α → β → Prop} {done : List α} {built : Array β} (before : List.Forall₂ related done built.toList)
    (new : related a b) : List.Forall₂ related (done ++ [a]) (built.push b).toList := by
  rw [Array.toList_push]
  exact List.rel_append before (.cons new .nil)

theorem internText_checks (text : String) (intact : h.Intact) : Checks (internText text) h [] fun v s => s.Inscribed text v :=
  ⟨.single .intern,fun _ member => absurd member List.not_mem_nil,Heap.intern_inscribed text intact⟩

theorem constant_checks (function : String) (data : Json.Data) (intact : h.Intact) :
    Checks (constant function data) h [(function,.value data)] fun v s => Translates s.Inscribed data v := by
  have sound (plain : Constant data) : ∀ entry ∈ [(function,Item.value data)], entry.2.Sound := by
    intro entry member
    rw [List.mem_singleton.mp member]
    exact plain
  cases data with
  | null => exact ⟨.refl,sound trivial,.null⟩
  | bool b => exact ⟨.refl,sound trivial,.bool⟩
  | number n =>
      cases n with
      | integer i =>
          refine ⟨.refl,sound trivial,?_⟩
          split
          · rename_i fits
            exact .int fits
          · rename_i wide
            exact .large (Bool.eq_false_iff.mpr wide)
      | double d => exact ⟨.refl,sound trivial,.double⟩
  | string text => exact ⟨.single .intern,sound trivial,.text (Heap.intern_inscribed text intact)⟩
  | array items => exact .single ⟨not_false,rfl⟩
  | object members => exact .single ⟨not_false,rfl⟩

theorem addParameters_checks (function : String) (parameters : List ParameterText) {a : Assembler} {done : List ParameterText}
    (intact : h.Intact) (declared : List.Forall₂ (Declared h.Inscribed) done a.function.parameters.toList) :
    Checks (addParameters function parameters a) h (parameters.map fun p => (function,.value p.default)) fun b s =>
      List.Forall₂ (Declared s.Inscribed) (done ++ parameters) b.function.parameters.toList ∧ b.checked = a.checked ∧
        b.function = { a.function with parameters := b.function.parameters, registers := b.function.registers } := by
  induction parameters generalizing h a done with
  | nil => exact .pure ⟨by simpa using declared,rfl,rfl⟩
  | cons p rest ih =>
      refine (constant_checks function p.default intact).bind fun v s steps default => ?_
      refine (internText_checks p.name (steps.intact intact)).bind fun name t steps' named => ?_
      have later (text : String) (v : Value) (inscribed : h.Inscribed text v) : t.Inscribed text v :=
        inscribed.later (steps.trans steps') intact
      have new : Declared t.Inscribed p { name,default := v } :=
        ⟨named,default.imp fun _ _ inscribed => inscribed.later steps' (steps.intact intact)⟩
      have before : List.Forall₂ (Declared t.Inscribed) done a.function.parameters.toList :=
        declared.imp fun _ _ earlier => ⟨later _ _ earlier.1,earlier.2.imp later⟩
      have added := ih (a := a.parameter name v) (Heap.Steps.intact (steps.trans steps') intact) (forall₂_push before new)
      refine added.imp fun b u made => ?_
      obtain ⟨related,checked,same⟩ := made
      refine ⟨by simpa using related,checked,?_⟩
      rw [same]
      rfl

-- Instructions are added without a heap.
def Adds (result : Except ProgramError Assembler) (items : List (String × Item)) (post : Assembler → Prop) : Prop :=
  match result with
  | .ok b => (∀ entry ∈ items, entry.2.Sound) ∧ post b
  | .error e => Offends items e

-- Code that was put behind what is there.
structure Appended (a b : Assembler) (done : List InstructionText) : Prop where
  checked : b.checked = true
  code : List.Forall₂ Coded done b.function.code.toList
  same : b.function = { a.function with code := b.function.code, registers := b.function.registers }

theorem addInstruction_emitted {function : String} {position i : Nat} {a b : Assembler} {op : Opcode} (known : Opcode.ofMnemonic? mnemonic = some op)
    (emitted : a.emit op operands = .ok (i,b)) : addInstruction function position a (.named mnemonic operands) = .ok b := by
  simp only [addInstruction,known,emitted]

theorem addInstruction_adds (function : String) (position : Nat) (instruction : InstructionText) {a : Assembler} {done : List InstructionText}
    (checked : a.checked = true) (coded : List.Forall₂ Coded done a.function.code.toList) :
    Adds (addInstruction function position a instruction) [(function,.instruction position instruction)] fun b =>
      Appended a b (done ++ [instruction]) := by
  have single (sound : (Item.instruction position instruction).Sound) :
      ∀ entry ∈ [(function,Item.instruction position instruction)], entry.2.Sound := by
    intro entry member
    rw [List.mem_singleton.mp member]
    exact sound
  cases instruction with
  | word word => exact ⟨single trivial,checked,forall₂_push coded rfl,rfl⟩
  | named mnemonic operands =>
      cases known : Opcode.ofMnemonic? mnemonic with
      | none =>
          have failed : addInstruction function position a (.named mnemonic operands) =
              .error (.unknownMnemonic function position mnemonic) := by simp only [addInstruction,known]
          rw [failed]
          exact Offends.single (Or.inl ⟨Opcode.ofMnemonic?_none.mp known,rfl⟩)
      | some op =>
          have named := Opcode.ofMnemonic?_some.mp known
          cases encoded : Instruction.encode op operands with
          | error cause =>
              have refused : a.emit op operands = .error cause := by
                rw [Assembler.emit,Assembler.word,if_pos checked,encoded]
              have failed : addInstruction function position a (.named mnemonic operands) = .error (.encoding function position cause) := by
                simp only [addInstruction,known,refused]
              rw [failed]
              exact Offends.single (Or.inr ⟨op,cause,named,encoded,rfl⟩)
          | ok word =>
              have grown := (Assembler.reserveOperands_grows a.function op operands).1.same
              have emitted := Assembler.emit_ok checked encoded
              rw [grown] at emitted
              rw [addInstruction_emitted known emitted]
              exact ⟨single ⟨op,word,named,encoded⟩,checked,forall₂_push coded ⟨op,named,encoded⟩,rfl⟩

theorem addCode_adds (function : String) (position : Nat) (code : List InstructionText) {a : Assembler} {done : List InstructionText}
    (checked : a.checked = true) (coded : List.Forall₂ Coded done a.function.code.toList) :
    Adds (addCode function position code a) ((codeItems position code).map (function,·)) fun b => Appended a b (done ++ code) := by
  induction code generalizing position a done with
  | nil => exact ⟨fun _ member => absurd member List.not_mem_nil,checked,by simpa using coded,rfl⟩
  | cons instruction rest ih =>
      have first := addInstruction_adds function position instruction checked coded
      have split : (codeItems position (instruction :: rest)).map (function,·) =
          [(function,.instruction position instruction)] ++ (codeItems (position + 1) rest).map (function,·) := rfl
      rw [split]
      unfold addCode
      cases added : addInstruction function position a instruction with
      | error e =>
          rw [added] at first
          exact first.after _
      | ok b =>
          rw [added] at first
          obtain ⟨sound,appended⟩ := first
          have later := ih (position + 1) appended.checked appended.code
          simp only
          unfold Adds at later ⊢
          split
          · rename_i c made
            rw [made] at later
            obtain ⟨fine,again⟩ := later
            refine ⟨fun entry member => ?_,again.checked,by simpa using again.code,?_⟩
            · rcases List.mem_append.mp member with member | member
              · exact sound entry member
              · exact fine entry member
            · rw [again.same,appended.same]
          · rename_i e failed
            rw [failed] at later
            exact later.before sound

theorem constants_checks (function : String) (pool : List Json.Data) {built : Array Value} {done : List Json.Data} (intact : h.Intact)
    (translated : List.Forall₂ (Translates h.Inscribed) done built.toList) :
    Checks (constants function pool built) h (pool.map fun data => (function,.value data)) fun values s =>
      List.Forall₂ (Translates s.Inscribed) (done ++ pool) values.toList := by
  induction pool generalizing h built done with
  | nil => exact .pure (by simpa using translated)
  | cons data rest ih =>
      refine (constant_checks function data intact).bind fun v s steps new => ?_
      have before := translated.imp fun _ _ earlier => earlier.imp fun _ _ inscribed => inscribed.later steps intact
      refine (ih (steps.intact intact) (forall₂_push before new)).imp fun values t made => ?_
      simpa using made

theorem buildFunction_checks (f : FunctionText) (intact : h.Intact) :
    Checks (buildFunction true f) h (functionItems f) fun g s => Assembled s.Inscribed f g := by
  have parts : functionItems f = (f.parameters.map fun p => (f.name,Item.value p.default)) ++
      ((codeItems 0 f.code).map (f.name,·) ++ ((f.constants.map fun data => (f.name,Item.value data)) ++ [])) := by
    simp [functionItems,Function.comp_def]
  rw [parts]
  refine (addParameters_checks f.name f.parameters (a := .new f.name true) intact .nil).bind fun a s steps made => ?_
  obtain ⟨declared,checked,same⟩ := made
  have empty : a.function.code = #[] := by
    rw [same]
    rfl
  have added := addCode_adds f.name 0 f.code checked (by rw [empty]; exact .nil)
  simp only
  cases result : addCode f.name 0 f.code a with
  | error e =>
      rw [result] at added
      exact Offends.after added _
  | ok b =>
      rw [result] at added
      obtain ⟨sound,appended⟩ := added
      have coded : Checks (Pure.pure b : BuildM Assembler) s ((codeItems 0 f.code).map (f.name,·)) fun c _ => c = b := ⟨.refl,sound,rfl⟩
      refine coded.bind fun c t steps' same' => ?_
      subst same'
      have intact' := steps.intact intact
      refine (constants_checks f.name f.constants (steps'.intact intact') .nil).bind fun pool u steps'' translated => .pure ?_
      have later (text : String) (v : Value) (inscribed : s.Inscribed text v) : u.Inscribed text v :=
        inscribed.later (steps'.trans steps'') intact'
      have name : c.function.name = f.name := by rw [appended.same,same]; rfl
      have native : c.function.native = none := by rw [appended.same,same]; rfl
      have kept : c.function.parameters = a.function.parameters := by rw [appended.same]
      have parameters : List.Forall₂ (Declared u.Inscribed) f.parameters c.function.parameters.toList := by
        rw [kept]
        exact declared.imp fun _ _ earlier => ⟨later _ _ earlier.1,earlier.2.imp later⟩
      cases count : f.registers with
      | none =>
          refine ⟨name,parameters,appended.code,translated,fun _ given => ?_,native⟩
          rw [count] at given
          cases given
      | some n =>
          refine ⟨name,parameters,appended.code,translated,fun _ given => ?_,native⟩
          rw [count] at given
          cases given
          exact Nat.le_max_right _ _

theorem buildFunctions_checks (functions : List FunctionText) (built : Array Function) {done : List FunctionText} (intact : h.Intact)
    (assembled : List.Forall₂ (Assembled h.Inscribed) done built.toList) :
    Checks (buildFunctions true functions built) h (functions.flatMap functionItems) fun result s =>
      List.Forall₂ (Assembled s.Inscribed) (done ++ functions) result.toList := by
  induction functions generalizing h built done with
  | nil => exact .pure (by simpa using assembled)
  | cons f rest ih =>
      refine (buildFunction_checks f intact).bind fun g s steps new => ?_
      have before := assembled.imp fun _ _ earlier => earlier.imp fun _ _ inscribed => inscribed.later steps intact
      refine (ih _ (steps.intact intact) (forall₂_push before new)).imp fun result t made => ?_
      simpa using made

-- Building succeeds exactly if every item is sound. What was built stands for what was described, then and in whatever
-- the heap becomes, and an error is about the first item that is not sound.
theorem build_assembles (p : Program) {h : Heap} (intact : h.Intact) :
    ((∃ functions s, p.build true h = .ok functions s) ↔ ∀ entry ∈ p.items, entry.2.Sound) ∧
      (∀ functions s, p.build true h = .ok functions s →
        ∀ t, Heap.Steps s t → List.Forall₂ (Assembled t.Stands) p.functions functions.toList) ∧
      ∀ e s, p.build true h = .error e s → Offends p.items e := by
  have checks := buildFunctions_checks p.functions #[] intact .nil
  change Checks (p.build true) h p.items _ at checks
  unfold Checks at checks
  cases result : p.build true h with
  | ok functions s =>
      rw [result] at checks
      obtain ⟨steps,sound,assembled⟩ := checks
      refine ⟨⟨fun _ => sound,fun _ => ⟨functions,s,rfl⟩⟩,?_,?_⟩
      · intro functions' s' same t later
        cases same
        have intact' := steps.intact intact
        refine assembled.imp fun f g made => made.imp fun text v inscribed => ?_
        exact (inscribed.later later intact').stands (later.intact intact')
      · intro e' s' failed
        cases failed
  | error e s =>
      rw [result] at checks
      refine ⟨⟨?_,fun sound => absurd sound checks.unsound⟩,?_,?_⟩
      · rintro ⟨_,_,made⟩
        cases made
      · intro _ _ made
        cases made
      · intro e' s' failed
        cases failed
        exact checks

-- A function with a repeated constant, a mnemonic in small letters and a word.
def greeting : Program where
  functions := [{
    name := "@main",registers := some 9,parameters := [{ name := "count",default := .int 2 }]
    constants := [.string "hello world",.int 7,.int 7],code := [.named "load_ra_kbc" [0,1],.word 0x80000000] }]

theorem greeting_assembled :
    ∃ functions s, greeting.build true (.new {}) = .ok functions s ∧
      List.Forall₂ (Assembled s.collect.2.Stands) greeting.functions functions.toList := by
  obtain ⟨succeeds,assembled,_⟩ := build_assembles greeting (Heap.new_intact {})
  obtain ⟨functions,s,made⟩ := succeeds.mpr fun entry member => by
    change entry ∈ [("@main",Item.value (.int 2)),("@main",.instruction 0 (.named "load_ra_kbc" [0,1])),
      ("@main",.instruction 1 (.word 0x80000000)),("@main",.value (.string "hello world")),("@main",.value (.int 7)),
      ("@main",.value (.int 7))] at member
    simp only [List.mem_cons,List.not_mem_nil,or_false] at member
    rcases member with rfl | rfl | rfl | rfl | rfl | rfl
    · trivial
    · exact ⟨.loadConstant,0x03000001,by decide +kernel,by decide +kernel⟩
    · trivial
    · trivial
    · trivial
    · trivial
  exact ⟨functions,s,made,assembled functions s made _ (.single .collect)⟩

end Program

end RegisterMachine
