import ComfirmDmarc.MailHandler.ToJson

/-!
# MailHandler -- what `to_json` prints

The object that `to_json` appends for a list of siblings, over any buffer whose
append concatenates. `string_buffer_append` is one for strings that fit. An only
child without content makes `json_escape` read through `NULL` instead.
-/

namespace ComfirmDmarc.MailHandler

open CMemory JsonText

/-! ## The elements and their values -/

/-- The element nodes of a list of siblings, by name and children. -/
def elements : XmlNode → List (XmlName × XmlNode)
  | .null => []
  | .other _ _ next => elements next
  | .element name children next => (name, children) :: elements next

/-- The value of an element: nothing for no children, the text of the only
child, and an object for several. -/
def childrenValue (children : XmlNode) : Json :=
  if children.isNull then .string []
  else if children.next.isNull then .string (nodeContent children)
  else .object (members children)

/-- The member for an element. -/
def elementMember (element : XmlName × XmlNode) : Bytes × Json :=
  (element.1.text, childrenValue element.2)

theorem members_eq_map (nodes : XmlNode) : members nodes = (elements nodes).map elementMember := by
  induction nodes with
  | null => rfl
  | other kind content next ih => exact ih
  | element name children next _ ih =>
    have hvalue : (if children.next.isNull then Json.string (nodeContent children)
        else .object (members children)) = childrenValue children := by
      cases children with
      | null => rfl
      | element name children next => rfl
      | other kind content next => rfl
    rw [members, hvalue, ih]
    rfl

/-! ## The text -/

/-- What stands in front of the object. -/
def namePrefix : Option Bytes → Bytes
  | some name => 34 :: name ++ [34, 58, 32]
  | none => []

theorem flatten_namedPieces (name : Option Bytes) (nodes : XmlNode) :
    (toJsonPieces name nodes).flatten = namePrefix name ++ objectText nodes := by
  cases name with
  | none => exact flatten_toJsonPieces_none nodes
  | some name => exact flatten_toJsonPieces_some name nodes

/-- An append that puts each string behind the text so far. -/
def Concatenates {β ε : Type} (append : β → Bytes → Except ε β) (text : β → Bytes) : Prop :=
  ∀ sb value, ∃ sb', append sb value = .ok sb' ∧ text sb' = text sb ++ value

theorem Concatenates.appendAllWith {β ε : Type} {append : β → Bytes → Except ε β} {text : β → Bytes}
    (h : Concatenates append text) (sb : β) (values : List Bytes) :
    ∃ sb', appendAllWith append sb values = .ok sb' ∧ text sb' = text sb ++ values.flatten := by
  induction values generalizing sb with
  | nil => exact ⟨sb, rfl, by simp⟩
  | cons value values ih =>
    obtain ⟨sb1, happend, htext1⟩ := h sb value
    obtain ⟨sb', hall, htext⟩ := ih sb1
    refine ⟨sb', ?_, ?_⟩
    · rw [MailHandler.appendAllWith, List.foldlM_cons, happend]
      exact hall
    · rw [htext, htext1, List.flatten_cons, List.append_assoc]

section

variable {xmlNodeGetContent : XmlNode → Option Bytes} {β ε : Type}
  {append : β → Bytes → Except ε β} {nullString : ε} {text : β → Bytes}

variable (xmlNodeGetContent append nullString text) in
/-- **The siblings are printed**: behind the name, one object with a member for
each element, in order. -/
def PrintsObject (name : Option Bytes) (nodes : XmlNode) (sb : β) : Prop :=
  ∃ sb' object, toJsonWith xmlNodeGetContent append nullString name nodes sb = .ok sb' ∧
    text sb' = text sb ++ (namePrefix name ++ object) ∧
    IsValue object (.object ((elements nodes).map elementMember))

/-- **`to_json` prints the tree exactly where no printed content is `NULL`.** -/
theorem toJsonWith_prints_object (hget : GetsContent xmlNodeGetContent)
    (hconcat : Concatenates append text) (name : Option Bytes) {nodes : XmlNode}
    (hquote : QuoteFree nodes) (sb : β) :
    PrintsObject xmlNodeGetContent append nullString text name nodes sb ↔ ContentsSet nodes := by
  constructor
  · rintro ⟨sb', object, hprint, -⟩
    exact contentsSet_of_toJsonWith append nullString hget hprint
  · intro hset
    obtain ⟨sb', hall, htext⟩ := hconcat.appendAllWith sb (toJsonPieces name nodes)
    refine ⟨sb', objectText nodes, ?_, ?_, ?_⟩
    · rw [toJsonWith_eq append nullString hget name hset, hall]
    · rw [htext, flatten_namedPieces]
    · rw [← members_eq_map]
      exact objectText_isValue hquote

/-- For a string buffer the strings have to fit, too. -/
theorem toJson_object_of_fit (hget : GetsContent xmlNodeGetContent) (name : Option Bytes)
    {nodes : XmlNode} (hset : ContentsSet nodes) (hquote : QuoteFree nodes) {sb : StringBuffer}
    (hfit : Fit sb.room (toJsonPieces name nodes)) :
    PrintsObject xmlNodeGetContent stringBufferAppend .nullString StringBuffer.content name nodes
      sb := by
  obtain ⟨sb', hall, hcontent, -⟩ := appendAll_ok hfit
  refine ⟨sb', objectText nodes, ?_, ?_, ?_⟩
  · rw [← toJson_eq_with, toJson_eq hget name hset, hall]
  · rw [hcontent, flatten_namedPieces]
  · rw [← members_eq_map]
    exact objectText_isValue hquote

end

section Examples

/-- The buffer that is its text. -/
def plainAppend (sb value : Bytes) : Except Unit Bytes := .ok (sb ++ value)

theorem concatenates_plain : Concatenates plainAppend id := fun sb value => ⟨sb ++ value, rfl, rfl⟩

/-- `<row/><id><a/><b>x</b></id>`, with a line break in front of the second one. -/
def rowNodes : XmlNode :=
  .element ⟨bytes "row", by simp [bytes, isNameByte]⟩ .null <|
  .other .text (some ⟨[10], by simp [isCharByte]⟩) <|
  .element ⟨bytes "id", by simp [bytes, isNameByte]⟩
    (.element ⟨bytes "a", by simp [bytes, isNameByte]⟩ .null <|
      .element ⟨bytes "b", by simp [bytes, isNameByte]⟩
        (.other .text (some ⟨bytes "x", by simp [bytes, isCharByte]⟩) .null) .null)
    .null

theorem toJsonWith_prints_object_row :
    PrintsObject documentedContent plainAppend () id (some (bytes "policy")) rowNodes [] :=
  (toJsonWith_prints_object getsContent_documented concatenates_plain (some (bytes "policy"))
    (by decide) []).2 (by decide)

/-- `<a><?p?></a>`, whose instruction has no data. -/
def instructionNodes : XmlNode :=
  .element ⟨bytes "a", by simp [bytes, isNameByte]⟩ (.other .pi none .null) .null

/-- The content of the only child is `NULL`. -/
theorem instruction_prints_no_object :
    QuoteFree instructionNodes ∧
      ¬PrintsObject documentedContent plainAppend () id none instructionNodes [] := by
  refine ⟨by decide, ?_⟩
  rintro ⟨sb', object, hprint, -⟩
  have hset := contentsSet_of_toJsonWith plainAppend () getsContent_documented hprint
  have hnone : ¬ContentsSet instructionNodes := by decide
  exact hnone hset

end Examples

end ComfirmDmarc.MailHandler
