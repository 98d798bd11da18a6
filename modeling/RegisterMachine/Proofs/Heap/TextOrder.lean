import RegisterMachine.Proofs.Heap.Canonical
import RegisterMachine.Proofs.Heap.NaturalOrder
import RegisterMachine.Proofs.Heap.Reachable

namespace RegisterMachine

-- Three tests of some values: the second is a total order of them up to what the third calls the same, the first its strict part.
structure TotallyOrders (below atMost same : α → α → Bool) (among : α → Prop) : Prop where
  total : ∀ a b, among a → among b → atMost a b = true ∨ atMost b a = true
  trans : ∀ a b c, among a → among b → among c → atMost a b = true → atMost b c = true → atMost a c = true
  same : ∀ a b, among a → among b → (same a b = true ↔ atMost a b = true ∧ atMost b a = true)
  strict : ∀ a b, among a → among b → (below a b = true ↔ atMost a b = true ∧ atMost b a = false)

namespace Heap

variable {h : Heap} {a b : Value} {x y : String}

-- Where the text of a string is: within the value, in the object that all strings of the text share for good, or in an object of its own.
inductive Stored (h : Heap) : Value → String → Prop where
  | short (t : ShortText) : Stored h (.short t) t.text
  | interned : h.object? r = some (.str text) → h.isInterned (.str r) = true → Stored h (.str r) text
  | object : h.object? r = some (.str text) → h.isInterned (.str r) = false → Stored h (.str r) text

theorem stored_text : h.Stored v text ↔ h.text? v = some text := by
  constructor
  · intro stored
    cases stored with
    | short => rfl
    | interned there | object there => exact text?_str.mpr there
  · intro found
    rcases text?_string found with ⟨t,rfl,rfl⟩ | ⟨r,rfl,there⟩
    · exact .short t
    · cases shared : h.isInterned (.str r) with
      | true => exact .interned there shared
      | false => exact .object there shared

theorem less_strings (left : h.text? a = some x) (right : h.text? b = some y) : h.less a b = true ↔ Text.compareCodePoints x y = .lt := by
  simp only [less,isNumber_text left,isString_text left,isString_text right,Bool.false_and,Bool.and_self,Bool.true_and,Bool.false_eq_true,
    if_false,compareStrings_codePoints left right,beq_iff_eq]

theorem atMost_strings (left : h.text? a = some x) (right : h.text? b = some y) : h.atMost a b = true ↔ Text.compareCodePoints x y ≠ .gt := by
  simp only [atMost,isNumber_text left,isString_text left,isString_text right,Bool.false_and,Bool.and_self,Bool.true_and,Bool.false_eq_true,
    if_false,compareStrings_codePoints left right,bne_iff_ne]

theorem strings_totallyOrdered (h : Heap) : TotallyOrders h.less h.atMost h.equal fun v => ∃ text, h.Stored v text := by
  simp only [stored_text]
  constructor
  · rintro a b ⟨x,left⟩ ⟨y,right⟩
    rw [atMost_strings left right,atMost_strings right left,Text.compareCodePoints_swap x y]
    cases Text.compareCodePoints x y <;> simp
  · rintro a b c ⟨x,left⟩ ⟨y,middle⟩ ⟨z,right⟩ first second
    rw [atMost_strings left middle] at first
    rw [atMost_strings middle right] at second
    exact (atMost_strings left right).mpr (Text.compareCodePoints_trans first second)
  · rintro a b ⟨x,left⟩ ⟨y,right⟩
    rw [equal_texts left right,atMost_strings left right,atMost_strings right left,Text.compareCodePoints_swap x y,← Text.compareCodePoints_eq]
    cases Text.compareCodePoints x y <;> simp
  · rintro a b ⟨x,left⟩ ⟨y,right⟩
    rw [less_strings left right,← Bool.not_eq_true,atMost_strings left right,atMost_strings right left,Text.compareCodePoints_swap x y]
    cases Text.compareCodePoints x y <;> simp

-- What comparing two strings says, however each of them is stored.
structure OrdersStrings (h : Heap) : Prop where
  bytes : ∀ a b x y, h.Stored a x → h.Stored b y → h.compareStrings a b = List.compareLex compare (Text.bytes x) (Text.bytes y)
  codePoints : ∀ a b x y, h.Stored a x → h.Stored b y → h.compareStrings a b = Text.compareCodePoints x y
  less : ∀ a b x y, h.Stored a x → h.Stored b y → (h.less a b = true ↔ h.compareStrings a b = .lt)
  atMost : ∀ a b x y, h.Stored a x → h.Stored b y → (h.atMost a b = true ↔ h.compareStrings a b ≠ .gt)
  equal : ∀ a b x y, h.Stored a x → h.Stored b y → (h.compareStrings a b = .eq ↔ h.equal a b = true)
  order : TotallyOrders h.less h.atMost h.equal fun v => ∃ text, h.Stored v text

theorem ordersStrings (h : Heap) : h.OrdersStrings where
  bytes := fun _ _ _ _ left right => compareStrings_bytes (stored_text.mp left) (stored_text.mp right)
  codePoints := fun _ _ _ _ left right => compareStrings_codePoints (stored_text.mp left) (stored_text.mp right)
  less := by
    intro a b x y left right
    rw [less_strings (stored_text.mp left) (stored_text.mp right),compareStrings_codePoints (stored_text.mp left) (stored_text.mp right)]
  atMost := by
    intro a b x y left right
    rw [atMost_strings (stored_text.mp left) (stored_text.mp right),compareStrings_codePoints (stored_text.mp left) (stored_text.mp right)]
  equal := by
    intro a b x y left right
    rw [equal_texts (stored_text.mp left) (stored_text.mp right),compareStrings_codePoints (stored_text.mp left) (stored_text.mp right),
      Text.compareCodePoints_eq]
  order := strings_totallyOrdered h

-- One string of each form. The last character of the Basic Multilingual Plane is before the first one after it, whose
-- surrogates would be before it, and a beginning of a text is before the text.
theorem ordersStrings_forms : ∃ (h : Heap) (a b c : Value), Reachable h ∧ h.Stored a "𐀀" ∧ h.Stored b "\uffff\uffff" ∧
    h.Stored c (String.ofList (List.replicate 43 '\uffff')) ∧ (∃ t, a = .short t) ∧ h.isInterned b = true ∧ h.isInterned c = false ∧
    h.less b c = true ∧ h.less c a = true ∧ h.less b a = true := by
  have reachable := Reachable.call (.newString (String.ofList (List.replicate 43 '\uffff'))) (.call (.newString "\uffff\uffff") (.new {}))
  generalize whole : Call.run _ _ = h at reachable
  have interned : h.isInterned (.str ⟨0,0⟩) = true := by
    rw [← whole]
    decide +kernel
  have apart : h.isInterned (.str ⟨1,0⟩) = false := by
    rw [← whole]
    decide +kernel
  have short : h.Stored (.short ⟨"𐀀",by decide⟩) "𐀀" := .short _
  have word : h.Stored (.str ⟨0,0⟩) "\uffff\uffff" := stored_text.mpr (by rw [← whole]; decide +kernel)
  have long : h.Stored (.str ⟨1,0⟩) (String.ofList (List.replicate 43 '\uffff')) := stored_text.mpr (by rw [← whole]; decide +kernel)
  have orders := ordersStrings h
  have begins : h.less (.str ⟨0,0⟩) (.str ⟨1,0⟩) = true := by
    rw [orders.less _ _ _ _ word long,orders.codePoints _ _ _ _ word long]
    decide +kernel
  have above : h.less (.str ⟨1,0⟩) (.short ⟨"𐀀",by decide⟩) = true := by
    rw [orders.less _ _ _ _ long short,orders.codePoints _ _ _ _ long short]
    decide +kernel
  have both : h.less (.str ⟨0,0⟩) (.short ⟨"𐀀",by decide⟩) = true := by
    rw [orders.less _ _ _ _ word short,orders.codePoints _ _ _ _ word short]
    decide +kernel
  exact ⟨h,_,_,_,reachable,short,word,long,⟨_,rfl⟩,interned,apart,begins,above,both⟩

end Heap

end RegisterMachine
