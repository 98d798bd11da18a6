import RegisterMachine.Instruction.Word
import Mathlib.Algebra.Ring.Nat
import Mathlib.Data.List.Forall2

namespace RegisterMachine

namespace Opcode

theorem mem_all (op : Opcode) : op ∈ all.toList := by
  cases op with
  | binary operation => cases operation <;> decide
  | test comparison | branch comparison | skip comparison =>
      cases comparison with
      | lt sides | le sides => cases sides <;> decide
      | eq immediate | ne immediate => cases immediate <;> decide
  | _ => decide

theorem byte_lt (op : Opcode) : op.byte < 0x100 := by
  have few : all.toList.length ≤ 0x100 := by decide
  exact Nat.lt_of_lt_of_le (List.idxOf_lt_length_of_mem op.mem_all) few

theorem ofByte?_byte (op : Opcode) : ofByte? op.byte = some op := by
  rw [ofByte?,← Array.getElem?_toList]
  exact List.getElem?_idxOf op.mem_all

theorem byte_of_ofByte? {byte : Nat} {op : Opcode} (known : ofByte? byte = some op) : op.byte = byte := by
  have nodup : all.toList.Nodup := by decide +kernel
  obtain ⟨inside,rfl⟩ := Array.getElem?_eq_some_iff.mp known
  exact nodup.idxOf_getElem byte inside

end Opcode

theorem signed_bits (half : Nat) (operand : Int) (positive : 0 < half) :
    signed half (operand % (2 * half : Nat)).toNat = operand.bmod (2 * half) := by
  have low := Int.emod_nonneg operand (b := (2 * half : Nat)) (by omega)
  have high := Int.emod_lt_of_pos operand (b := (2 * half : Nat)) (by omega)
  simp only [signed,Int.bmod_def]
  omega

theorem signed_fits (half bits : Nat) (small : bits < 2 * half) :
    -half ≤ signed half bits ∧ signed half bits < half ∧ (signed half bits % (2 * half : Nat)).toNat = bits := by
  unfold signed
  split
  · rw [Int.emod_eq_of_lt] <;> omega
  · have wrapped : ((bits : Int) - 2 * half) % (2 * half : Nat) = bits := by
      rw [← Int.add_emod_right,Int.emod_eq_of_lt] <;> omega
    omega

namespace Field

-- The bits that fields take together.
def total : List Field → Nat
  | [] => 0
  | field :: rest => field.width + total rest

theorem total_widths (fields : List Field) : total fields = (fields.map width).foldr (· + ·) 0 := by
  induction fields with
  | nil => rfl
  | cons field rest ih => rw [total,ih,List.map_cons,List.foldr_cons]

-- A register or a constant is a number without a sign; an immediate may be given with one or without.
def InRange (field : Field) (operand : Int) : Prop :=
  match field.role with
  | .immediate => -(2 ^ (field.width - 1) : Nat) ≤ operand ∧ operand ≤ (2 ^ field.width : Nat) - 1
  | .register | .constant => 0 ≤ operand ∧ operand ≤ (2 ^ field.width : Nat) - 1

-- The operand as its field gives it back: an immediate as the number with a sign that has its bits.
def reduced (field : Field) (operand : Int) : Int :=
  match field.role with
  | .immediate => operand.bmod (2 ^ field.width)
  | .register | .constant => operand

theorem accepts_iff (field : Field) (operand : Int) : field.accepts operand = true ↔ field.InRange operand := by
  obtain ⟨role,width⟩ := field
  cases role with
  | immediate =>
      simp only [accepts,InRange,if_true,Bool.and_eq_true,decide_eq_true_eq,Int.le_sub_one_iff]
      rfl
  | register | constant =>
      simp only [accepts,InRange,reduceCtorEq,if_false,Bool.and_eq_true,decide_eq_true_eq,Int.le_sub_one_iff]
      rfl

theorem double_half {width : Nat} (wide : 0 < width) : 2 * 2 ^ (width - 1) = 2 ^ width := by
  rw [← Nat.pow_succ']
  congr 1
  omega

theorem read_bits {field : Field} {operand : Int} (wide : 0 < field.width) (fits : field.InRange operand) :
    field.read (operand % (2 ^ field.width : Nat)).toNat = field.reduced operand := by
  obtain ⟨role,width⟩ := field
  cases role with
  | immediate =>
      have bits := signed_bits (2 ^ (width - 1)) operand (Nat.two_pow_pos _)
      rw [double_half wide] at bits
      exact bits
  | register | constant =>
      simp only [InRange] at fits
      have kept : operand % (2 ^ width : Nat) = operand := Int.emod_eq_of_lt fits.1 (by omega)
      rw [kept]
      exact Int.toNat_of_nonneg fits.1

theorem read_fits {field : Field} {bits : Nat} (wide : 0 < field.width) (small : bits < 2 ^ field.width) :
    field.InRange (field.read bits) ∧ (field.read bits % (2 ^ field.width : Nat)).toNat = bits := by
  obtain ⟨role,width⟩ := field
  have double := double_half wide
  cases role with
  | immediate =>
      simp only at double small
      have facts := signed_fits (2 ^ (width - 1)) bits (by omega)
      rw [double] at facts
      obtain ⟨low,high,same⟩ := facts
      have below : signed (2 ^ (width - 1)) bits ≤ (2 ^ width : Nat) - 1 := by omega
      exact ⟨⟨low,below⟩,same⟩
  | register | constant =>
      change (0 ≤ (bits : Int) ∧ (bits : Int) ≤ (2 ^ width : Nat) - 1) ∧ ((bits : Int) % (2 ^ width : Nat)).toNat = bits
      simp only at small
      rw [Int.emod_eq_of_lt] <;> omega

end Field

namespace Word

theorem slice_below (word : Word) (shift width : Nat) (fits : width ≤ shift) :
    word.slice (shift - width) width = word.toNat % 2 ^ shift / 2 ^ (shift - width) := by
  have whole : 2 ^ shift = 2 ^ (shift - width) * 2 ^ width := by
    rw [← Nat.pow_add,Nat.sub_add_cancel fits]
  rw [whole,Nat.mod_mul_right_div_self]
  rfl

theorem slice_lt (word : Word) (shift width : Nat) : word.slice shift width < 2 ^ width :=
  Nat.mod_lt _ (Nat.two_pow_pos _)

theorem low_split (word : Word) (shift width : Nat) (fits : width ≤ shift) :
    word.toNat % 2 ^ shift = word.slice (shift - width) width * 2 ^ (shift - width) + word.toNat % 2 ^ (shift - width) := by
  have inner : word.toNat % 2 ^ shift % 2 ^ (shift - width) = word.toNat % 2 ^ (shift - width) :=
    Nat.mod_mod_of_dvd _ (Nat.pow_dvd_pow 2 (Nat.sub_le shift width))
  rw [slice_below word shift width fits,← inner]
  exact (Nat.div_add_mod' _ _).symm

theorem cut_multiple {power unit factor : Nat} (multiple : power = unit * factor) (positive : 0 < unit) (count rest : Nat) :
    (count * power + rest) / unit * unit = count * power + rest / unit * unit := by
  have split : count * power = unit * (count * factor) := by
    rw [multiple]
    ac_rfl
  rw [split,Nat.mul_add_div positive,Nat.add_mul]
  ac_rfl

theorem packBelow_cons (shift : Nat) (field : Field) (rest : List Field) (operand : Int) (operands : List Int) :
    packBelow shift ((field :: rest).map Field.width) (operand :: operands) =
      (operand % (2 ^ field.width : Nat)).toNat * 2 ^ (shift - field.width) +
        packBelow (shift - field.width) (rest.map Field.width) operands := rfl

theorem packBelow_lt (fields : List Field) (operands : List Int) (shift : Nat) (fits : Field.total fields ≤ shift) :
    packBelow shift (fields.map Field.width) operands < 2 ^ shift := by
  induction fields generalizing operands shift with
  | nil => exact Nat.two_pow_pos shift
  | cons field rest ih =>
      cases operands with
      | nil => exact Nat.two_pow_pos shift
      | cons operand operands =>
          simp only [Field.total] at fits
          have below := ih operands (shift - field.width) (by omega)
          have digit : (operand % (2 ^ field.width : Nat)).toNat < 2 ^ field.width := by
            have positive : 0 < 2 ^ field.width := Nat.two_pow_pos _
            omega
          have whole : 2 ^ shift = 2 ^ field.width * 2 ^ (shift - field.width) := by
            rw [← Nat.pow_add]
            congr 1
            omega
          rw [packBelow_cons,whole]
          calc _ < (operand % (2 ^ field.width : Nat)).toNat * 2 ^ (shift - field.width) + 2 ^ (shift - field.width) := by omega
            _ = ((operand % (2 ^ field.width : Nat)).toNat + 1) * 2 ^ (shift - field.width) := by rw [Nat.add_one_mul]
            _ ≤ _ := Nat.mul_le_mul_right _ digit

end Word

namespace Instruction

-- Reading what was packed.
theorem readFields_packed {fields : List Field} {operands : List Int} (word : Word) {shift : Nat}
    (wide : ∀ field ∈ fields, 0 < field.width) (inRange : List.Forall₂ Field.InRange fields operands)
    (fits : Field.total fields ≤ shift) (packed : word.toNat % 2 ^ shift = Word.packBelow shift (fields.map Field.width) operands) :
    readFields word shift fields = List.zipWith Field.reduced fields operands := by
  induction inRange generalizing shift with
  | nil => rfl
  | @cons field operand rest operands first _ ih =>
      simp only [Field.total] at fits
      have below := Word.packBelow_lt rest operands (shift - field.width) (by omega)
      rw [Word.packBelow_cons] at packed
      have bits : word.slice (shift - field.width) field.width = (operand % (2 ^ field.width : Nat)).toNat := by
        rw [Word.slice_below word shift field.width (by omega),packed,Nat.mul_comm,Nat.mul_add_div (Nat.two_pow_pos _),Nat.div_eq_of_lt below]
        rfl
      have lower : word.toNat % 2 ^ (shift - field.width) = Word.packBelow (shift - field.width) (rest.map Field.width) operands := by
        rw [Word.low_split word shift field.width (by omega),bits] at packed
        exact Nat.add_left_cancel packed
      simp only [readFields,List.zipWith_cons_cons,bits,Field.read_bits (wide field List.mem_cons_self) first,
        ih (fun other member => wide other (List.mem_cons_of_mem _ member)) (by omega) lower]

theorem readFields_inRange (word : Word) (fields : List Field) (shift : Nat) (wide : ∀ field ∈ fields, 0 < field.width) :
    List.Forall₂ Field.InRange fields (readFields word shift fields) := by
  induction fields generalizing shift with
  | nil => exact .nil
  | cons field rest ih =>
      refine .cons ?_ (ih _ fun other member => wide other (List.mem_cons_of_mem _ member))
      exact (Field.read_fits (wide field List.mem_cons_self) (word.slice_lt _ _)).1

-- Packing what was read keeps the bits of the fields and clears those below them.
theorem packBelow_read (word : Word) (fields : List Field) (shift : Nat) (wide : ∀ field ∈ fields, 0 < field.width)
    (fits : Field.total fields ≤ shift) :
    Word.packBelow shift (fields.map Field.width) (readFields word shift fields) =
      word.toNat % 2 ^ shift / 2 ^ (shift - Field.total fields) * 2 ^ (shift - Field.total fields) := by
  induction fields generalizing shift with
  | nil =>
      simp only [Field.total,Nat.sub_zero,Nat.div_eq_of_lt (Nat.mod_lt _ (Nat.two_pow_pos shift)),Nat.zero_mul]
      rfl
  | cons field rest ih =>
      simp only [Field.total] at fits
      have digit := (Field.read_fits (wide field List.mem_cons_self) (word.slice_lt (shift - field.width) field.width)).2
      have low := ih (shift - field.width) (fun other member => wide other (List.mem_cons_of_mem _ member)) (by omega)
      have left : shift - Field.total (field :: rest) = shift - field.width - Field.total rest := by
        simp only [Field.total]
        omega
      have multiple : 2 ^ (shift - field.width) =
          2 ^ (shift - field.width - Field.total rest) * 2 ^ Field.total rest := by
        rw [← Nat.pow_add]
        congr 1
        omega
      rw [readFields,Word.packBelow_cons,digit,low,left,Word.low_split word shift field.width (by omega),
        Word.cut_multiple multiple (Nat.two_pow_pos _)]

theorem firstRejected?_none {fields : List Field} {operands : List Int} :
    firstRejected? fields operands = none ↔ ∀ pair ∈ fields.zip operands, pair.1.InRange pair.2 := by
  simp only [firstRejected?,Option.map_eq_none_iff,List.find?_eq_none,← Field.accepts_iff]
  constructor
  · intro accepted pair member
    obtain ⟨i,inside,found⟩ := List.getElem_of_mem member
    simpa using accepted (pair,i) (List.mk_mem_zipIdx_iff_getElem?.mpr (List.getElem?_eq_some_iff.mpr ⟨inside,found⟩))
  · intro accepted entry member
    simpa using accepted entry.1 (List.fst_mem_of_mem_zipIdx member)

-- Every operand is there and fits its field.
def Fits (op : Opcode) (operands : List Int) : Prop := List.Forall₂ Field.InRange op.fields operands

theorem encode_ok_iff {op : Opcode} {operands : List Int} {word : Word} :
    encode op operands = .ok word ↔ Fits op operands ∧ word = encodeUnchecked op operands := by
  unfold encode Fits
  rw [List.forall₂_iff_zip]
  split
  · rename_i other
    constructor
    · intro encoded
      cases encoded
    · intro fits
      exact absurd fits.1.1 other
  · rename_i same
    cases rejected : firstRejected? op.fields operands with
    | some entry =>
        have refused : ¬ ∀ pair ∈ op.fields.zip operands, pair.1.InRange pair.2 := by
          rw [← firstRejected?_none,rejected]
          exact Option.some_ne_none entry
        constructor
        · intro encoded
          cases encoded
        · intro fits
          exact absurd (fun pair member => fits.1.2 member) refused
    | none =>
        have accepted := firstRejected?_none.mp rejected
        constructor
        · intro encoded
          cases encoded
          exact ⟨⟨not_ne_iff.mp same,fun member => accepted _ member⟩,rfl⟩
        · intro fits
          rw [fits.2]

end Instruction

namespace Opcode

theorem fields_layout (op : Opcode) : op.fields.map Field.width ∈ [[],[8],[8,8],[8,8,8],[8,16],[16,8],[24]] :=
  (by decide +kernel : ∀ op ∈ all.toList, op.fields.map Field.width ∈ [[],[8],[8,8],[8,8,8],[8,16],[16,8],[24]]) op op.mem_all

theorem fields_wide (op : Opcode) : ∀ field ∈ op.fields, 0 < field.width := by
  intro field member
  have each : ∀ widths ∈ [[],[8],[8,8],[8,8,8],[8,16],[16,8],[24]], ∀ width ∈ widths, 0 < width := by decide
  exact each _ op.fields_layout field.width (List.mem_map_of_mem member)

theorem fields_fit (op : Opcode) : Field.total op.fields ≤ 24 := by
  have each : ∀ widths ∈ [[],[8],[8,8],[8,8,8],[8,16],[16,8],[24]], widths.foldr (· + ·) 0 ≤ 24 := by decide
  rw [Field.total_widths]
  exact each _ op.fields_layout

-- The opcode and its fields fill a word from the left.
def fieldMask (op : Opcode) : Word := 0xffffffff <<< UInt32.ofNat (24 - Field.total op.fields)

end Opcode

namespace Word

theorem pack_toNat (op : Opcode) (operands : List Int) :
    (pack op (op.fields.map Field.width) operands).toNat = op.byte * 0x1000000 + packBelow 24 (op.fields.map Field.width) operands := by
  have byte := op.byte_lt
  have below := packBelow_lt op.fields operands 24 op.fields_fit
  exact UInt32.toNat_ofNat_of_lt' (show _ < 0x100000000 by omega)

theorem opcode?_pack (op : Opcode) (operands : List Int) : (pack op (op.fields.map Field.width) operands).opcode? = some op := by
  have below := packBelow_lt op.fields operands 24 op.fields_fit
  have high : (pack op (op.fields.map Field.width) operands).opcodeByte = op.byte := by
    rw [opcodeByte,pack_toNat]
    omega
  rw [opcode?,high,op.ofByte?_byte]

theorem and_high_toNat (word : Word) {low : Nat} (small : low ≤ 24) :
    (word &&& 0xffffffff <<< UInt32.ofNat low).toNat = word.toNat / 2 ^ low * 2 ^ low := by
  have mask : (0xffffffff <<< UInt32.ofNat low : UInt32).toNat = (2 ^ 32 - 1) <<< low % 2 ^ 32 := by
    rw [UInt32.toNat_shiftLeft,UInt32.toNat_ofNat_of_lt' (show low < 2 ^ 32 by omega),Nat.mod_eq_of_lt (by omega : low < 32)]
    rfl
  apply Nat.eq_of_testBit_eq
  intro i
  rw [UInt32.toNat_and,mask,Nat.testBit_and,Nat.testBit_mod_two_pow,Nat.testBit_shiftLeft,Nat.testBit_two_pow_sub_one,
    ← Nat.shiftRight_eq_div_pow,← Nat.shiftLeft_eq,Nat.testBit_shiftLeft,Nat.testBit_shiftRight]
  by_cases high : low ≤ i
  · rw [Nat.add_sub_cancel' high]
    by_cases inside : i < 32
    · simp [high,inside,show i - low < 32 by omega]
    · have bound : word.toNat < 2 ^ i := Nat.lt_of_lt_of_le word.toNat_lt (Nat.pow_le_pow_right (by omega) (by omega))
      simp [Nat.testBit_lt_two_pow bound]
  · simp [high]

end Word

namespace Instruction

theorem decode?_packed {op : Opcode} {operands : List Int} (fits : Fits op operands) :
    decode? (encodeUnchecked op operands) = some (op,List.zipWith Field.reduced op.fields operands) := by
  have below := Word.packBelow_lt op.fields operands 24 op.fields_fit
  have low : (encodeUnchecked op operands).toNat % 2 ^ 24 = Word.packBelow 24 (op.fields.map Field.width) operands := by
    rw [encodeUnchecked,Word.pack_toNat]
    omega
  have known : (encodeUnchecked op operands).opcode? = some op := Word.opcode?_pack op operands
  rw [decode?,known,Option.map_some,readFields_packed _ op.fields_wide fits op.fields_fit low]

theorem encodeUnchecked_read {word : Word} {op : Opcode} (known : word.opcode? = some op) :
    encodeUnchecked op (readFields word 24 op.fields) = word &&& op.fieldMask := by
  have byte : op.byte = word.toNat / 0x1000000 := Opcode.byte_of_ofByte? known
  have fit := op.fields_fit
  have unit : 2 ^ 24 = 2 ^ (24 - Field.total op.fields) * 2 ^ Field.total op.fields := by
    rw [← Nat.pow_add,Nat.sub_add_cancel fit]
  rw [← UInt32.toNat_inj,encodeUnchecked,Word.pack_toNat,packBelow_read word op.fields 24 op.fields_wide fit,byte,
    Opcode.fieldMask,Word.and_high_toNat word (Nat.sub_le 24 _)]
  calc word.toNat / 2 ^ 24 * 2 ^ 24 + _ = (word.toNat / 2 ^ 24 * 2 ^ 24 + word.toNat % 2 ^ 24) / 2 ^ (24 - Field.total op.fields) *
        2 ^ (24 - Field.total op.fields) := (Word.cut_multiple unit (Nat.two_pow_pos _) _ _).symm
    _ = _ := by rw [Nat.div_add_mod']

end Instruction

-- What a mnemonic spells after its label, a text for each field.
def Opcode.suffixTexts (op : Opcode) : List (List Char) := (op.mnemonic.toList.splitOn '_').tail

namespace Word

-- The bits at places, without a sign and with one.
def placed? (word : Word) : List Char → Option (Nat × Int)
  | ['A'] => some (word.a,word.aSigned)
  | ['B'] => some (word.b,word.bSigned)
  | ['C'] => some (word.c,word.cSigned)
  | ['A','B'] => some (word.ab,word.abSigned)
  | ['B','C'] => some (word.bc,word.bcSigned)
  | ['A','B','C'] => some (word.abc,word.abcSigned)
  | _ => none

-- The accessor that a suffix names: the letter of the role, then the places.
def named? (word : Word) : List Char → Option Int
  | 'i' :: places => (word.placed? places).map Prod.snd
  | 'r' :: places | 'k' :: places => (word.placed? places).map fun bits => (bits.1 : Int)
  | _ => none

end Word

namespace Field

-- The suffix of a field and those of the fields after it, from the places that are left.
def spelled : List Char → List Field → List (List Char)
  | _, [] => []
  | places, field :: rest =>
    (field.role.letter.toList ++ places.take (field.width / 8)) :: spelled (places.drop (field.width / 8)) rest

end Field

theorem Opcode.suffixTexts_spelled (op : Opcode) : op.suffixTexts = Field.spelled ['A','B','C'] op.fields :=
  (by decide +kernel : ∀ op ∈ all.toList, op.suffixTexts = Field.spelled ['A','B','C'] op.fields) op op.mem_all

namespace Instruction

theorem read_named (word : Word) (places : List Char) (shift width : Nat) (role : Role)
    (placed : (places,shift,width) ∈ [(['A'],16,8),(['B'],8,8),(['A','B'],8,16),(['C'],0,8),(['B','C'],0,16),(['A','B','C'],0,24)]) :
    word.named? (role.letter.toList ++ places) = some (Field.read ⟨role,width⟩ (word.slice shift width)) := by
  have lowest (width : Nat) : word.slice 0 width = word.toNat % Nat.pow 2 width := congrArg (· % Nat.pow 2 width) (Nat.div_one _)
  simp only [List.mem_cons,List.not_mem_nil,or_false,Prod.mk.injEq] at placed
  rcases placed with ⟨rfl,rfl,rfl⟩ | ⟨rfl,rfl,rfl⟩ | ⟨rfl,rfl,rfl⟩ | lowest_place
  · cases role <;> rfl
  · cases role <;> rfl
  · cases role <;> rfl
  · rcases lowest_place with ⟨rfl,rfl,rfl⟩ | ⟨rfl,rfl,rfl⟩ | ⟨rfl,rfl,rfl⟩ <;> rw [lowest] <;> cases role <;> rfl

theorem readFields_named (word : Word) (op : Opcode) :
    (readFields word 24 op.fields).map some = op.suffixTexts.map word.named? := by
  rw [op.suffixTexts_spelled]
  have a (role : Role) := read_named word ['A'] 16 8 role (by decide)
  have b (role : Role) := read_named word ['B'] 8 8 role (by decide)
  have c (role : Role) := read_named word ['C'] 0 8 role (by decide)
  have ab (role : Role) := read_named word ['A','B'] 8 16 role (by decide)
  have bc (role : Role) := read_named word ['B','C'] 0 16 role (by decide)
  have abc (role : Role) := read_named word ['A','B','C'] 0 24 role (by decide)
  have layout := op.fields_layout
  generalize op.fields = fields at layout
  rcases fields with _ | ⟨⟨first,_⟩,_ | ⟨⟨second,_⟩,_ | ⟨⟨third,_⟩,rest⟩⟩⟩ <;>
    simp only [List.map_nil,List.map_cons,List.mem_cons,List.not_mem_nil,or_false,List.cons.injEq,reduceCtorEq,and_true,and_false,
      false_or,List.map_eq_nil_iff] at layout
  · rfl
  · rcases layout with rfl | rfl <;> simp [readFields,Field.spelled,a,abc]
  · rcases layout with ⟨rfl,rfl⟩ | ⟨rfl,rfl⟩ | ⟨rfl,rfl⟩ <;> simp [readFields,Field.spelled,a,b,c,ab,bc]
  · obtain ⟨rfl,rfl,rfl,rfl⟩ := layout
    simp [readFields,Field.spelled,a,b,c]

theorem encode_roundTrip (op : Opcode) (operands : List Int) (word : Word) :
    ((∃ encoded, encode op operands = .ok encoded) ↔ Fits op operands) ∧
      (encode op operands = .ok word →
        word = encodeUnchecked op operands ∧ decode? word = some (op,List.zipWith Field.reduced op.fields operands)) ∧
      (word.opcode? = some op → ∃ decoded, decode? word = some (op,decoded) ∧
        encode op decoded = .ok (word &&& op.fieldMask) ∧ decoded.map some = op.suffixTexts.map word.named?) := by
  refine ⟨⟨?_,?_⟩,?_,?_⟩
  · rintro ⟨encoded,done⟩
    exact (encode_ok_iff.mp done).1
  · intro fits
    exact ⟨_,encode_ok_iff.mpr ⟨fits,rfl⟩⟩
  · intro done
    obtain ⟨fits,rfl⟩ := encode_ok_iff.mp done
    exact ⟨rfl,decode?_packed fits⟩
  · intro known
    have inRange := readFields_inRange word op.fields 24 op.fields_wide
    refine ⟨readFields word 24 op.fields,by rw [decode?,known,Option.map_some],?_,readFields_named word op⟩
    exact encode_ok_iff.mpr ⟨inRange,(encodeUnchecked_read known).symm⟩

theorem encode_roundTrip_negative :
    Fits (.branch (.lt .immediateLeft)) [-1,4,255] ∧
      encode (.branch (.lt .immediateLeft)) [-1,4,255] = .ok 0x2aff04ff ∧
      decode? 0x2aff04ff = some (.branch (.lt .immediateLeft),[-1,4,-1]) ∧
      encode (.branch (.lt .immediateLeft)) [-1,4,-1] = .ok (0x2aff04ff &&& 0xffffffff) := by
  have encoded : encode (.branch (.lt .immediateLeft)) [-1,4,255] = .ok 0x2aff04ff := by decide +kernel
  have trip := encode_roundTrip (.branch (.lt .immediateLeft)) [-1,4,255] 0x2aff04ff
  have decoded : decode? 0x2aff04ff = some (.branch (.lt .immediateLeft),[-1,4,-1]) := (trip.2.1 encoded).2
  refine ⟨trip.1.mp ⟨_,encoded⟩,encoded,decoded,?_⟩
  obtain ⟨operands,again,back,_⟩ := trip.2.2 (by decide +kernel)
  rw [decoded] at again
  cases again
  exact back

end Instruction

end RegisterMachine
