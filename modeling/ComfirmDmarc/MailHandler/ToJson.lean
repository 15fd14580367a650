import ComfirmDmarc.Lib.Json
import ComfirmDmarc.MailHandler.StringBuffer

/-!
# MailHandler -- XML into JSON

`json_escape`, `to_json`, `records_to_json` and `parse_xml` of `mailhandler.c`
over the tree that libxml2 makes of a document. `xmlNodeGetContent` of libxml2
is a parameter; what is relied on is its documentation (`GetsContent`).

Each of the printers appends a list of strings that the tree alone decides
(`elementPieces`, `recordPieces`, `reportPieces`), unless it comes to a content
that is `NULL` (`ContentsSet`). Where the texts need no more escaping than they
get, the strings of an element make up a member of an object
(`memberTexts_members`).
-/

namespace ComfirmDmarc.MailHandler

open CMemory JsonText

/-! ## The tree -/

/-- The bytes of an element name: ASCII letters and digits, `_`, `-`, `.`, `:`,
and those of all other characters. -/
def isNameByte (c : UInt8) : Bool :=
  128 ≤ c || (97 ≤ c && c ≤ 122) || (65 ≤ c && c ≤ 90) || (48 ≤ c && c ≤ 57) || c == 95 ||
    c == 45 || c == 46 || c == 58

structure XmlName where
  text : Bytes
  valid : ∀ c ∈ text, isNameByte c = true

/-- A character of an XML text: no control character but TAB, LF and CR. -/
def isCharByte (c : UInt8) : Bool := 32 ≤ c || c == 9 || c == 10 || c == 13

structure XmlText where
  text : Bytes
  valid : ∀ c ∈ text, isCharByte c = true

/-- `XML_TEXT_NODE`, `XML_CDATA_SECTION_NODE`, `XML_COMMENT_NODE`, `XML_PI_NODE`
and `XML_ENTITY_REF_NODE`. -/
inductive NodeKind
  | text
  | cdata
  | comment
  | pi
  | entityRef
  deriving DecidableEq, Repr

/-- An `xmlNode *`: the node with its first child and its next sibling. The
content of a reference is what the entity stands for. It is `none` for `NULL`,
as of an instruction without data or of a reference to no declared entity. -/
inductive XmlNode
  | null
  | element (name : XmlName) (children next : XmlNode)
  | other (kind : NodeKind) (content : Option XmlText) (next : XmlNode)

def XmlNode.isNull : XmlNode → Bool
  | .null => true
  | _ => false

/-- `cur_node->next`. -/
def XmlNode.next : XmlNode → XmlNode
  | .null => .null
  | .element _ _ next => next
  | .other _ _ next => next

/-- The kinds that count for the content of an element around them. -/
def NodeKind.isContent : NodeKind → Bool
  | .text | .cdata | .entityRef => true
  | .comment | .pi => false

def contentText (content : Option XmlText) : Bytes := content.elim [] XmlText.text

/-- The texts below the node and its next siblings. -/
def textOf : XmlNode → Bytes
  | .null => []
  | .element _ children next => textOf children ++ textOf next
  | .other kind content next => (if kind.isContent then contentText content else []) ++ textOf next

/-- **What libxml2 documents of `xmlNodeGetContent`**: of an element it puts the
texts below together, with the references replaced; other nodes carry their
content themselves, and it is `NULL` where they have none. -/
structure GetsContent (xmlNodeGetContent : XmlNode → Option Bytes) : Prop where
  element : ∀ name children next,
    xmlNodeGetContent (.element name children next) = some (textOf children)
  other : ∀ kind content next,
    xmlNodeGetContent (.other kind content next) = content.map XmlText.text

/-- What is documented, as a function. -/
def documentedContent : XmlNode → Option Bytes
  | .null => none
  | .element _ children _ => some (textOf children)
  | .other _ content _ => content.map XmlText.text

theorem getsContent_documented : GetsContent documentedContent where
  element _ _ _ := rfl
  other _ _ _ := rfl

/-- The content of a node, where it has one. -/
def nodeContent : XmlNode → Bytes
  | .null => []
  | .element _ children _ => textOf children
  | .other _ content _ => contentText content

/-- The content of the node is `NULL`. -/
def XmlNode.lacksContent : XmlNode → Bool
  | .null => false
  | .element _ _ _ => false
  | .other _ content _ => content.isNone

/-! ## The code -/

def escapeByte (c : UInt8) : Bytes :=
  if c = 9 then [92, 116]
  else if c = 10 then [92, 110]
  else if c = 92 then [92, 92]
  else if c = 13 then [92, 114]
  else [c]

/-- `json_escape`. -/
def jsonEscape (str : Bytes) : Bytes := str.flatMap escapeByte

/-- `json_escape` of a pointer: its `strlen` reads through `NULL`. -/
def jsonEscapeOf {ε : Type} (nullString : ε) : Option Bytes → Except ε Bytes
  | none => .error nullString
  | some str => .ok (jsonEscape str)

section

variable (xmlNodeGetContent : XmlNode → Option Bytes)

/-- The text in front of the members in `to_json`. -/
def toJsonOpen (name : Option Bytes) (sb : StringBuffer) : Except BufferFault StringBuffer :=
  match name with
  | some name => do
    let sb ← stringBufferAppend sb (bytes "\"")
    let sb ← stringBufferAppend sb name
    stringBufferAppend sb (bytes "\": \x7b")
  | none => stringBufferAppend sb (bytes "\x7b")

/-- The loop of `to_json`. The inner call of `to_json` is written out
(`toJsonLoop_nested`). -/
def toJsonLoop (first : Bool) : XmlNode → StringBuffer → Except BufferFault StringBuffer
  | .null, sb => .ok sb
  | .other _ _ next, sb => toJsonLoop first next sb
  | .element name children next, sb => do
    let sb ← if first then .ok sb else stringBufferAppend sb (bytes ",")
    let sb ←
      if !children.isNull then
        if children.next.isNull then do
          let content := xmlNodeGetContent children
          let value ← jsonEscapeOf .nullString content
          let sb ← stringBufferAppend sb (bytes "\"")
          let sb ← stringBufferAppend sb name.text
          let sb ← stringBufferAppend sb (bytes "\": \"")
          let sb ← stringBufferAppend sb value
          stringBufferAppend sb (bytes "\"")
        else do
          let sb ← toJsonOpen (some name.text) sb
          let sb ← toJsonLoop true children sb
          stringBufferAppend sb (bytes "\x7d")
      else do
        let sb ← stringBufferAppend sb (bytes "\"")
        let sb ← stringBufferAppend sb name.text
        stringBufferAppend sb (bytes "\": \"\"")
    toJsonLoop false next sb

/-- `to_json`. -/
def toJson (name : Option Bytes) (nodes : XmlNode) (sb : StringBuffer) :
    Except BufferFault StringBuffer := do
  let sb ← toJsonOpen name sb
  let sb ← toJsonLoop xmlNodeGetContent true nodes sb
  stringBufferAppend sb (bytes "\x7d")

section

variable {β ε : Type} (append : β → Bytes → Except ε β) (nullString : ε)

/-- `toJsonOpen` over any buffer. -/
def toJsonOpenWith (name : Option Bytes) (sb : β) : Except ε β :=
  match name with
  | some name => do
    let sb ← append sb (bytes "\"")
    let sb ← append sb name
    append sb (bytes "\": \x7b")
  | none => append sb (bytes "\x7b")

/-- `toJsonLoop` over any buffer. -/
def toJsonLoopWith (first : Bool) : XmlNode → β → Except ε β
  | .null, sb => .ok sb
  | .other _ _ next, sb => toJsonLoopWith first next sb
  | .element name children next, sb => do
    let sb ← if first then .ok sb else append sb (bytes ",")
    let sb ←
      if !children.isNull then
        if children.next.isNull then do
          let content := xmlNodeGetContent children
          let value ← jsonEscapeOf nullString content
          let sb ← append sb (bytes "\"")
          let sb ← append sb name.text
          let sb ← append sb (bytes "\": \"")
          let sb ← append sb value
          append sb (bytes "\"")
        else do
          let sb ← toJsonOpenWith append (some name.text) sb
          let sb ← toJsonLoopWith true children sb
          append sb (bytes "\x7d")
      else do
        let sb ← append sb (bytes "\"")
        let sb ← append sb name.text
        append sb (bytes "\": \"\"")
    toJsonLoopWith false next sb

/-- **`to_json` over any buffer**, with what appends to it in place of
`string_buffer_append`, and with the fault for a `strlen` of `NULL`. -/
def toJsonWith (name : Option Bytes) (nodes : XmlNode) (sb : β) : Except ε β := do
  let sb ← toJsonOpenWith append name sb
  let sb ← toJsonLoopWith xmlNodeGetContent append nullString true nodes sb
  append sb (bytes "\x7d")

end

/-- The loop of `records_to_json`. -/
def recordsLoop (first : Bool) : XmlNode → StringBuffer → Except BufferFault StringBuffer
  | .null, sb => .ok sb
  | .other _ _ next, sb => recordsLoop first next sb
  | .element name children next, sb =>
    if name.text = bytes "record" then do
      let sb ← if first then .ok sb else stringBufferAppend sb (bytes ",")
      let sb ← toJson xmlNodeGetContent none children sb
      recordsLoop false next sb
    else recordsLoop first next sb

/-- `records_to_json`. -/
def recordsToJson (nodes : XmlNode) (sb : StringBuffer) : Except BufferFault StringBuffer := do
  let sb ← stringBufferAppend sb (bytes "\"records\": [")
  let sb ← recordsLoop xmlNodeGetContent true nodes sb
  stringBufferAppend sb (bytes "]")

/-- The loop of `parse_xml` over the top elements. -/
def topLoop : XmlNode → StringBuffer → Except BufferFault StringBuffer
  | .null, sb => .ok sb
  | .other _ _ next, sb => topLoop next sb
  | .element name children next, sb => do
    let sb ←
      if name.text = bytes "report_metadata" then
        toJson xmlNodeGetContent (some (bytes "metadata")) children sb
      else if name.text = bytes "policy_published" then do
        let sb ← if sb.str.isSome then stringBufferAppend sb (bytes ",") else .ok sb
        toJson xmlNodeGetContent (some (bytes "policy")) children sb
      else .ok sb
    topLoop next sb

/-- `parse_xml`: the result and the buffer. The document is the first child of
its root element, `none` where `xmlReadMemory` gives `NULL`. -/
def parseXml (document : Option XmlNode) (sb : StringBuffer) :
    Except BufferFault (Int × StringBuffer) :=
  match document with
  | none => .ok (1, sb)
  | some nodes => do
    let sb ← topLoop xmlNodeGetContent nodes sb
    let sb ← if sb.str.isSome then stringBufferAppend sb (bytes ",") else .ok sb
    let sb ← recordsToJson xmlNodeGetContent nodes sb
    return (0, sb)

theorem toJsonOpen_eq_with (name : Option Bytes) :
    toJsonOpen name = toJsonOpenWith stringBufferAppend name := rfl

theorem toJsonLoop_eq_with (first : Bool) (nodes : XmlNode) :
    toJsonLoop xmlNodeGetContent first nodes =
      toJsonLoopWith xmlNodeGetContent stringBufferAppend .nullString first nodes := by
  induction nodes generalizing first with
  | null => rfl
  | other kind content next ih => exact ih first
  | element name children next ihc ih =>
    funext sb
    rw [toJsonLoop, toJsonLoopWith, ihc, ih]
    rfl

/-- The code is the one over string buffers. -/
theorem toJson_eq_with (name : Option Bytes) (nodes : XmlNode) :
    toJson xmlNodeGetContent name nodes =
      toJsonWith xmlNodeGetContent stringBufferAppend .nullString name nodes := by
  funext sb
  rw [toJson, toJsonWith, toJsonOpen_eq_with, toJsonLoop_eq_with]

end

/-! ## What is printed -/

/-- The top elements that `parse_xml` prints on the way. -/
inductive TopKind
  | metadata
  | policy
  deriving DecidableEq, Repr

def TopKind.name : TopKind → Bytes
  | .metadata => bytes "metadata"
  | .policy => bytes "policy"

/-- The printed top elements with their children, in the order of the document. -/
def topElements : XmlNode → List (TopKind × XmlNode)
  | .null => []
  | .other _ _ next => topElements next
  | .element name children next =>
    if name.text = bytes "report_metadata" then (.metadata, children) :: topElements next
    else if name.text = bytes "policy_published" then (.policy, children) :: topElements next
    else topElements next

/-- The children of each record. -/
def recordElements : XmlNode → List XmlNode
  | .null => []
  | .other _ _ next => recordElements next
  | .element name children next =>
    if name.text = bytes "record" then children :: recordElements next else recordElements next

/-- **No printed content is `NULL`**: an only child has a content. -/
def ContentsSet : XmlNode → Prop
  | .null => True
  | .other _ _ next => ContentsSet next
  | .element _ children next =>
    (if children.next.isNull then children.lacksContent = false else ContentsSet children) ∧
      ContentsSet next

def ReportContentsSet (nodes : XmlNode) : Prop :=
  (∀ t ∈ topElements nodes, ContentsSet t.2) ∧ ∀ r ∈ recordElements nodes, ContentsSet r

instance decContentsSet : (nodes : XmlNode) → Decidable (ContentsSet nodes)
  | .null => .isTrue trivial
  | .other _ _ next => decContentsSet next
  | .element _ children next =>
    have := decContentsSet children
    have := decContentsSet next
    inferInstanceAs (Decidable ((if children.next.isNull then children.lacksContent = false
      else ContentsSet children) ∧ ContentsSet next))

instance (nodes : XmlNode) : Decidable (ReportContentsSet nodes) :=
  inferInstanceAs (Decidable ((∀ t ∈ topElements nodes, ContentsSet t.2) ∧
    ∀ r ∈ recordElements nodes, ContentsSet r))

section

variable {xmlNodeGetContent : XmlNode → Option Bytes} {ε : Type}

theorem GetsContent.jsonEscapeOf (hget : GetsContent xmlNodeGetContent) (nullString : ε)
    {node : XmlNode} (hnull : node.isNull = false) (hset : node.lacksContent = false) :
    jsonEscapeOf nullString (xmlNodeGetContent node) = .ok (jsonEscape (nodeContent node)) := by
  cases node with
  | null => cases hnull
  | element name children next =>
    rw [hget.element]
    rfl
  | other kind content next =>
    rw [hget.other]
    cases content with
    | none => cases hset
    | some text => rfl

theorem GetsContent.jsonEscapeOf_null (hget : GetsContent xmlNodeGetContent) (nullString : ε)
    {node : XmlNode} (hlacks : node.lacksContent = true) :
    MailHandler.jsonEscapeOf nullString (xmlNodeGetContent node) = .error nullString := by
  cases node with
  | null => cases hlacks
  | element name children next => cases hlacks
  | other kind content next =>
    rw [hget.other]
    cases content with
    | none => rfl
    | some text => cases hlacks

end

/-! ## The strings that are appended -/

/-- List after list, with a comma in front of each but the first one. -/
def separated (first : Bool) : List (List Bytes) → List Bytes
  | [] => []
  | pieces :: rest => (if first then [] else [bytes ","]) ++ pieces ++ separated false rest

def openPieces : Option Bytes → List Bytes
  | some name => [bytes "\"", name, bytes "\": \x7b"]
  | none => [bytes "\x7b"]

/-- The strings of each element. -/
def elementPieces : XmlNode → List (List Bytes)
  | .null => []
  | .other _ _ next => elementPieces next
  | .element name children next =>
    (if !children.isNull then
      if children.next.isNull then
        [bytes "\"", name.text, bytes "\": \"", jsonEscape (nodeContent children), bytes "\""]
      else openPieces (some name.text) ++ separated true (elementPieces children) ++ [bytes "\x7d"]
    else [bytes "\"", name.text, bytes "\": \"\""]) :: elementPieces next

def toJsonPieces (name : Option Bytes) (nodes : XmlNode) : List Bytes :=
  openPieces name ++ separated true (elementPieces nodes) ++ [bytes "\x7d"]

/-- The strings of each record. -/
def recordPieces : XmlNode → List (List Bytes)
  | .null => []
  | .other _ _ next => recordPieces next
  | .element name children next =>
    (if name.text = bytes "record" then [toJsonPieces none children] else []) ++ recordPieces next

def recordsPieces (nodes : XmlNode) : List Bytes :=
  bytes "\"records\": [" :: separated true (recordPieces nodes) ++ [bytes "]"]

/-- A comma where something has been written. -/
def commaPieces (started : Bool) : List Bytes := if started then [bytes ","] else []

/-- The strings of the top elements, with a comma in front of a policy only. -/
def topPieces (started : Bool) : XmlNode → List Bytes
  | .null => []
  | .other _ _ next => topPieces started next
  | .element name children next =>
    if name.text = bytes "report_metadata" then
      toJsonPieces (some (bytes "metadata")) children ++ topPieces true next
    else if name.text = bytes "policy_published" then
      commaPieces started ++ toJsonPieces (some (bytes "policy")) children ++ topPieces true next
    else topPieces started next

/-- Some top element is printed. -/
def anyTop : XmlNode → Bool
  | .null => false
  | .other _ _ next => anyTop next
  | .element name _ next =>
    name.text = bytes "report_metadata" || name.text = bytes "policy_published" || anyTop next

def reportPieces (started : Bool) (nodes : XmlNode) : List Bytes :=
  topPieces started nodes ++ commaPieces (started || anyTop nodes) ++ recordsPieces nodes

theorem separated_false (pieces : List Bytes) (rest : List (List Bytes)) :
    separated false (pieces :: rest) = [bytes ","] ++ separated true (pieces :: rest) := rfl

section

variable {β ε : Type} (append : β → Bytes → Except ε β)

/-- One append after the other. -/
def appendAllWith (sb : β) (values : List Bytes) : Except ε β := values.foldlM append sb

theorem appendAllWith_append (sb : β) (values values' : List Bytes) :
    appendAllWith append sb (values ++ values') =
      appendAllWith append sb values >>= fun sb => appendAllWith append sb values' :=
  List.foldlM_append

theorem appendAllWith_singleton (sb : β) (value : Bytes) :
    appendAllWith append sb [value] = append sb value := by
  rw [appendAllWith, List.foldlM_cons]
  cases append sb value <;> rfl

theorem toJsonOpenWith_eq (name : Option Bytes) (sb : β) :
    toJsonOpenWith append name sb = appendAllWith append sb (openPieces name) := by
  cases name with
  | none => exact (appendAllWith_singleton append sb _).symm
  | some name =>
    simp only [toJsonOpenWith, ← appendAllWith_singleton append, ← appendAllWith_append]
    rfl

variable {xmlNodeGetContent : XmlNode → Option Bytes} (nullString : ε)

/-- The comma alone sets an element apart from the first one. -/
theorem toJsonLoopWith_false_element (name : XmlName) (children next : XmlNode) (sb : β) :
    toJsonLoopWith xmlNodeGetContent append nullString false (.element name children next) sb =
      append sb (bytes ",") >>=
        toJsonLoopWith xmlNodeGetContent append nullString true (.element name children next) := rfl

theorem toJsonLoopWith_true_element (hget : GetsContent xmlNodeGetContent) {name : XmlName}
    {children next : XmlNode} (sb : β) (hset : ContentsSet (.element name children next))
    (hchildren : ContentsSet children → ∀ sb,
      toJsonLoopWith xmlNodeGetContent append nullString true children sb =
        appendAllWith append sb (separated true (elementPieces children)))
    (hnext : ∀ sb, toJsonLoopWith xmlNodeGetContent append nullString false next sb =
      appendAllWith append sb (separated false (elementPieces next))) :
    toJsonLoopWith xmlNodeGetContent append nullString true (.element name children next) sb =
      appendAllWith append sb (separated true (elementPieces (.element name children next))) := by
  obtain ⟨hset, -⟩ := hset
  rw [elementPieces, separated]
  cases hnull : children.isNull with
  | true =>
    simp only [toJsonLoopWith, hnull, hnext, ← appendAllWith_singleton append,
      ← appendAllWith_append]
    rfl
  | false =>
    cases hlone : children.next.isNull with
    | true =>
      rw [hlone, if_pos rfl] at hset
      simp only [toJsonLoopWith, hnull, hlone, hget.jsonEscapeOf nullString hnull hset, hnext,
        ← appendAllWith_singleton append, ← appendAllWith_append]
      rfl
    | false =>
      rw [hlone, if_neg (by decide)] at hset
      simp only [toJsonLoopWith, hnull, hlone, toJsonOpenWith_eq, hchildren hset, hnext,
        ← appendAllWith_singleton append, ← appendAllWith_append]
      simp only [Bool.not_false, if_true, Bool.false_eq_true, if_false, List.nil_append,
        List.append_assoc]
      rfl

theorem toJsonLoopWith_eq (hget : GetsContent xmlNodeGetContent) (first : Bool) {nodes : XmlNode}
    (hset : ContentsSet nodes) (sb : β) :
    toJsonLoopWith xmlNodeGetContent append nullString first nodes sb =
      appendAllWith append sb (separated first (elementPieces nodes)) := by
  induction nodes generalizing first sb with
  | null => rfl
  | other kind content next ih => exact ih first hset sb
  | element name children next ihc ih =>
    have hfirst : toJsonLoopWith xmlNodeGetContent append nullString true
        (.element name children next) = fun sb => appendAllWith append sb
          (separated true (elementPieces (.element name children next))) :=
      funext fun sb => toJsonLoopWith_true_element append nullString hget sb hset
        (ihc true) (ih false hset.2)
    cases first with
    | true => rw [hfirst]
    | false =>
      rw [toJsonLoopWith_false_element, hfirst, ← appendAllWith_singleton append,
        ← appendAllWith_append, elementPieces, separated_false]

/-- **`to_json` appends the strings of the tree**, whatever appends them. -/
theorem toJsonWith_eq (hget : GetsContent xmlNodeGetContent) (name : Option Bytes)
    {nodes : XmlNode} (hset : ContentsSet nodes) (sb : β) :
    toJsonWith xmlNodeGetContent append nullString name nodes sb =
      appendAllWith append sb (toJsonPieces name nodes) := by
  simp only [toJsonWith, toJsonOpenWith_eq, toJsonLoopWith_eq append nullString hget true hset,
    ← appendAllWith_singleton append, ← appendAllWith_append]
  rw [toJsonPieces, List.append_assoc]

/-- An `Except` computation goes through where both of its parts do. -/
theorem bind_eq_ok {α γ : Type} {x : Except ε α} {f : α → Except ε γ} {c : γ} :
    x >>= f = .ok c ↔ ∃ a, x = .ok a ∧ f a = .ok c := by
  cases x with
  | error e =>
    constructor
    · intro h
      cases h
    · rintro ⟨a, h, -⟩
      cases h
  | ok a =>
    constructor
    · intro h
      exact ⟨a, rfl, h⟩
    · rintro ⟨a, h, hf⟩
      cases h
      exact hf

/-- With or without a comma in front, the rest goes through. -/
theorem ok_behind_comma {γ : Type} {comma : Bool} {x : Except ε β} {sb : β}
    {rest : β → Except ε γ} {c : γ} (h : (if comma then x >>= rest else rest sb) = .ok c) :
    ∃ sb', rest sb' = .ok c := by
  cases comma with
  | true =>
    obtain ⟨sb', -, h⟩ := bind_eq_ok.mp h
    exact ⟨sb', h⟩
  | false => exact ⟨sb, h⟩

/-- One element, then the siblings behind it. -/
theorem toJsonLoopWith_element_next (name : XmlName) (children next : XmlNode) (sb : β) :
    toJsonLoopWith xmlNodeGetContent append nullString true (.element name children next) sb =
      toJsonLoopWith xmlNodeGetContent append nullString true (.element name children .null) sb >>=
        toJsonLoopWith xmlNodeGetContent append nullString false next := by
  cases hnull : children.isNull with
  | true =>
    simp only [toJsonLoopWith, hnull, Bool.not_true, Bool.false_eq_true, if_true, if_false,
      bind_assoc]
    rfl
  | false =>
    cases hlone : children.next.isNull with
    | true =>
      simp only [toJsonLoopWith, hnull, hlone, Bool.not_false, if_true, bind_assoc]
      rfl
    | false =>
      simp only [toJsonLoopWith, hnull, hlone, Bool.not_false, Bool.false_eq_true, if_true,
        if_false, bind_assoc]
      rfl

theorem isNull_of_lacksContent {node : XmlNode} (h : node.lacksContent = true) :
    node.isNull = false := by
  cases node with
  | null => cases h
  | element name children next => rfl
  | other kind content next => rfl

theorem isNull_of_next {node : XmlNode} (h : node.next.isNull = false) : node.isNull = false := by
  cases node with
  | null => cases h
  | element name children next => rfl
  | other kind content next => rfl

/-- **`to_json` comes to its end only where no printed content is `NULL`.** -/
theorem contentsSet_of_toJsonLoopWith (hget : GetsContent xmlNodeGetContent) {first : Bool}
    {nodes : XmlNode} {sb sb' : β}
    (h : toJsonLoopWith xmlNodeGetContent append nullString first nodes sb = .ok sb') :
    ContentsSet nodes := by
  induction nodes generalizing first sb sb' with
  | null => trivial
  | other kind content next ih => exact ih h
  | element name children next ihc ih =>
    have hfirst : ∃ sb, toJsonLoopWith xmlNodeGetContent append nullString true
        (.element name children next) sb = .ok sb' := by
      cases first with
      | true => exact ⟨sb, h⟩
      | false =>
        rw [toJsonLoopWith_false_element, bind_eq_ok] at h
        obtain ⟨sb1, -, h⟩ := h
        exact ⟨sb1, h⟩
    obtain ⟨sb1, hfirst⟩ := hfirst
    rw [toJsonLoopWith_element_next, bind_eq_ok] at hfirst
    obtain ⟨sb2, helement, hnext⟩ := hfirst
    refine ⟨?_, ih hnext⟩
    cases hlone : children.next.isNull with
    | true =>
      rw [if_pos rfl, ← Bool.not_eq_true]
      intro hlacks
      -- the escaping reads through NULL
      simp only [toJsonLoopWith, isNull_of_lacksContent hlacks, hlone,
        hget.jsonEscapeOf_null nullString hlacks] at helement
      cases helement
    | false =>
      rw [if_neg (by decide)]
      simp only [toJsonLoopWith, isNull_of_next hlone, hlone] at helement
      obtain ⟨sb3, -, helement⟩ := bind_eq_ok.mp helement
      obtain ⟨sb4, -, helement⟩ := bind_eq_ok.mp helement
      obtain ⟨sb5, hinner, -⟩ := bind_eq_ok.mp helement
      exact ihc hinner

theorem contentsSet_of_toJsonWith (hget : GetsContent xmlNodeGetContent) {name : Option Bytes}
    {nodes : XmlNode} {sb sb' : β}
    (h : toJsonWith xmlNodeGetContent append nullString name nodes sb = .ok sb') :
    ContentsSet nodes := by
  obtain ⟨sb1, -, h⟩ := bind_eq_ok.mp h
  obtain ⟨sb2, hloop, -⟩ := bind_eq_ok.mp h
  exact contentsSet_of_toJsonLoopWith append nullString hget hloop

end

section

variable {xmlNodeGetContent : XmlNode → Option Bytes}

theorem toJson_eq (hget : GetsContent xmlNodeGetContent) (name : Option Bytes) {nodes : XmlNode}
    (hset : ContentsSet nodes) (sb : StringBuffer) :
    toJson xmlNodeGetContent name nodes sb = appendAll sb (toJsonPieces name nodes) := by
  rw [toJson_eq_with]
  exact toJsonWith_eq stringBufferAppend .nullString hget name hset sb

theorem contentsSet_of_toJson (hget : GetsContent xmlNodeGetContent) {name : Option Bytes}
    {nodes : XmlNode} {sb sb' : StringBuffer}
    (h : toJson xmlNodeGetContent name nodes sb = .ok sb') : ContentsSet nodes := by
  rw [toJson_eq_with] at h
  exact contentsSet_of_toJsonWith stringBufferAppend .nullString hget h

/-- The inner call: an element with several children is `to_json` of these. -/
theorem toJsonLoop_nested {name : XmlName} {children next : XmlNode} (sb : StringBuffer)
    (hnull : children.isNull = false) (hlone : children.next.isNull = false) :
    toJsonLoop xmlNodeGetContent true (.element name children next) sb =
      toJson xmlNodeGetContent (some name.text) children sb >>=
        toJsonLoop xmlNodeGetContent false next := by
  simp only [toJsonLoop, hnull, hlone, toJson, bind_assoc]
  rfl

theorem recordsLoop_eq (hget : GetsContent xmlNodeGetContent) (first : Bool) {nodes : XmlNode}
    (hset : ∀ r ∈ recordElements nodes, ContentsSet r) (sb : StringBuffer) :
    recordsLoop xmlNodeGetContent first nodes sb =
      appendAll sb (separated first (recordPieces nodes)) := by
  induction nodes generalizing first sb with
  | null => rfl
  | other kind content next ih => exact ih first hset sb
  | element name children next _ ih =>
    rw [recordsLoop, recordPieces]
    rw [recordElements] at hset
    by_cases hname : name.text = bytes "record"
    · rw [if_pos hname, List.forall_mem_cons] at hset
      simp only [if_pos hname, List.singleton_append, separated, List.append_assoc,
        toJson_eq hget none hset.1, ih false hset.2]
      cases first with
      | true => exact (appendAll_append sb _ _).symm
      | false =>
        simp only [← appendAll_singleton, ← appendAll_append]
        rfl
    · rw [if_neg hname] at hset
      rw [if_neg hname, if_neg hname]
      exact ih first hset sb

theorem contentsSet_of_recordsLoop (hget : GetsContent xmlNodeGetContent) {first : Bool}
    {nodes : XmlNode} {sb sb' : StringBuffer}
    (h : recordsLoop xmlNodeGetContent first nodes sb = .ok sb') :
    ∀ r ∈ recordElements nodes, ContentsSet r := by
  induction nodes generalizing first sb sb' with
  | null => exact fun r hr => absurd hr List.not_mem_nil
  | other kind content next ih => exact ih h
  | element name children next _ ih =>
    rw [recordsLoop] at h
    rw [recordElements]
    by_cases hname : name.text = bytes "record"
    · rw [if_pos hname] at h
      rw [if_pos hname, List.forall_mem_cons]
      -- with or without its comma, the record is printed
      have hrecord : ∃ sb, (toJson xmlNodeGetContent none children sb >>=
          recordsLoop xmlNodeGetContent false next) = .ok sb' := by
        cases first with
        | true => exact ⟨sb, h⟩
        | false =>
          obtain ⟨sb1, -, h⟩ := bind_eq_ok.mp h
          exact ⟨sb1, h⟩
      obtain ⟨sb1, hrecord⟩ := hrecord
      obtain ⟨sb2, hprint, hnext⟩ := bind_eq_ok.mp hrecord
      exact ⟨contentsSet_of_toJson hget hprint, ih hnext⟩
    · rw [if_neg hname] at h
      rw [if_neg hname]
      exact ih h

theorem recordsToJson_eq (hget : GetsContent xmlNodeGetContent) {nodes : XmlNode}
    (hset : ∀ r ∈ recordElements nodes, ContentsSet r) (sb : StringBuffer) :
    recordsToJson xmlNodeGetContent nodes sb = appendAll sb (recordsPieces nodes) := by
  simp only [recordsToJson, recordsLoop_eq hget true hset, ← appendAll_singleton,
    ← appendAll_append]
  rfl

end

theorem toJsonPieces_any (name : Option Bytes) (nodes : XmlNode) :
    ((toJsonPieces name nodes).any fun value => value ≠ []) = true := by
  have hclose : decide (bytes "\x7d" ≠ []) = true := by simp [bytes]
  rw [toJsonPieces, List.any_append, List.any_cons, hclose, Bool.true_or, Bool.or_true]

theorem topPieces_any (started : Bool) (nodes : XmlNode) :
    ((topPieces started nodes).any fun value => value ≠ []) = anyTop nodes := by
  induction nodes generalizing started with
  | null => rfl
  | other kind content next ih => exact ih started
  | element name children next _ ih =>
    rw [topPieces, anyTop]
    by_cases hmeta : name.text = bytes "report_metadata"
    · rw [if_pos hmeta, List.any_append, toJsonPieces_any]
      simp [hmeta]
    · by_cases hpolicy : name.text = bytes "policy_published"
      · rw [if_neg hmeta, if_pos hpolicy, List.any_append, List.any_append, toJsonPieces_any]
        simp [hpolicy]
      · rw [if_neg hmeta, if_neg hpolicy, ih]
        simp [hmeta, hpolicy]

section

variable {xmlNodeGetContent : XmlNode → Option Bytes}

/-- After a top element the buffer is not `NULL`. -/
theorem appendAll_topLoop {pieces : List Bytes} {next : XmlNode} (sb : StringBuffer)
    (hany : (pieces.any fun value => value ≠ []) = true)
    (hnext : ∀ sb, topLoop xmlNodeGetContent next sb =
      appendAll sb (topPieces sb.str.isSome next)) :
    appendAll sb pieces >>= topLoop xmlNodeGetContent next =
      appendAll sb (pieces ++ topPieces true next) := by
  refine appendAll_bind fun sb' hstr => ?_
  rw [hnext, hstr, hany, Bool.or_true]

/-- The loop over the top elements: what is written first decides about the comma behind it. -/
theorem topLoop_eq (hget : GetsContent xmlNodeGetContent) {nodes : XmlNode}
    (hset : ∀ t ∈ topElements nodes, ContentsSet t.2) (sb : StringBuffer) :
    topLoop xmlNodeGetContent nodes sb = appendAll sb (topPieces sb.str.isSome nodes) := by
  induction nodes generalizing sb with
  | null => rfl
  | other kind content next ih => exact ih hset sb
  | element name children next _ ih =>
    rw [topPieces]
    rw [topElements] at hset
    by_cases hmeta : name.text = bytes "report_metadata"
    · rw [if_pos hmeta, List.forall_mem_cons] at hset
      rw [if_pos hmeta, ← appendAll_topLoop sb (toJsonPieces_any _ _) (ih hset.2)]
      simp only [topLoop, if_pos hmeta, toJson_eq hget _ hset.1]
    · rw [if_neg hmeta] at hset
      by_cases hpolicy : name.text = bytes "policy_published"
      -- the policy is written with or without its comma
      · rw [if_pos hpolicy, List.forall_mem_cons] at hset
        have hany : ((commaPieces sb.str.isSome ++ toJsonPieces (some (bytes "policy")) children).any
            fun value => value ≠ []) = true := by
          rw [List.any_append, toJsonPieces_any, Bool.or_true]
        rw [if_neg hmeta, if_pos hpolicy, ← appendAll_topLoop sb hany (ih hset.2), appendAll_append]
        simp only [topLoop, if_neg hmeta, if_pos hpolicy, toJson_eq hget _ hset.1]
        cases hsome : sb.str.isSome with
        | true =>
          have hcomma : appendAll sb (commaPieces true) = stringBufferAppend sb (bytes ",") :=
            appendAll_singleton sb _
          rw [hcomma, if_pos rfl, bind_assoc]
        | false => rfl
      · rw [if_neg hpolicy] at hset
        rw [if_neg hmeta, if_neg hpolicy, ← ih hset]
        simp only [topLoop, if_neg hmeta, if_neg hpolicy]
        rfl

theorem contentsSet_of_topLoop (hget : GetsContent xmlNodeGetContent) {nodes : XmlNode}
    {sb sb' : StringBuffer} (h : topLoop xmlNodeGetContent nodes sb = .ok sb') :
    ∀ t ∈ topElements nodes, ContentsSet t.2 := by
  induction nodes generalizing sb sb' with
  | null => exact fun t ht => absurd ht List.not_mem_nil
  | other kind content next ih => exact ih h
  | element name children next _ ih =>
    rw [topLoop] at h
    rw [topElements]
    by_cases hmeta : name.text = bytes "report_metadata"
    · rw [if_pos hmeta] at h
      rw [if_pos hmeta, List.forall_mem_cons]
      obtain ⟨sb1, hprint, hnext⟩ := bind_eq_ok.mp h
      exact ⟨contentsSet_of_toJson hget hprint, ih hnext⟩
    · rw [if_neg hmeta] at h
      rw [if_neg hmeta]
      by_cases hpolicy : name.text = bytes "policy_published"
      · rw [if_pos hpolicy] at h
        rw [if_pos hpolicy, List.forall_mem_cons]
        obtain ⟨sb1, hpolicy⟩ := ok_behind_comma h
        obtain ⟨sb2, hprint, hnext⟩ := bind_eq_ok.mp hpolicy
        exact ⟨contentsSet_of_toJson hget hprint, ih hnext⟩
      · rw [if_neg hpolicy] at h
        rw [if_neg hpolicy]
        exact ih h

/-- The comma in front of the records and what follows it. -/
theorem appendAll_comma (hget : GetsContent xmlNodeGetContent) {nodes : XmlNode}
    (hset : ∀ r ∈ recordElements nodes, ContentsSet r) (sb : StringBuffer) :
    (if sb.str.isSome then stringBufferAppend sb (bytes ",") >>= recordsToJson xmlNodeGetContent nodes
      else recordsToJson xmlNodeGetContent nodes sb) =
      appendAll sb (commaPieces sb.str.isSome ++ recordsPieces nodes) := by
  rw [appendAll_append]
  simp only [← recordsToJson_eq hget hset]
  cases sb.str.isSome with
  | true =>
    have hcomma : appendAll sb (commaPieces true) = stringBufferAppend sb (bytes ",") :=
      appendAll_singleton sb _
    rw [hcomma, if_pos rfl]
  | false => rfl

/-- **`parse_xml` appends the strings of the report.** -/
theorem parseXml_eq (hget : GetsContent xmlNodeGetContent) {nodes : XmlNode}
    (hset : ReportContentsSet nodes) (sb : StringBuffer) :
    parseXml xmlNodeGetContent (some nodes) sb =
      appendAll sb (reportPieces sb.str.isSome nodes) >>= fun sb => pure (0, sb) := by
  have hreport : (topLoop xmlNodeGetContent nodes sb >>= fun sb =>
      if sb.str.isSome then
        stringBufferAppend sb (bytes ",") >>= recordsToJson xmlNodeGetContent nodes
      else recordsToJson xmlNodeGetContent nodes sb) =
        appendAll sb (reportPieces sb.str.isSome nodes) := by
    rw [topLoop_eq hget hset.1, reportPieces, List.append_assoc]
    refine appendAll_bind fun sb' hstr => ?_
    rw [topPieces_any] at hstr
    rw [appendAll_comma hget hset.2, hstr]
  rw [← hreport, bind_assoc]
  rw [parseXml]
  refine bind_congr fun sb' => ?_
  cases sb'.str.isSome with
  | true => exact (bind_assoc _ _ _).symm
  | false => rfl

theorem contentsSet_of_parseXml (hget : GetsContent xmlNodeGetContent) {nodes : XmlNode}
    {sb : StringBuffer} {result : Int × StringBuffer}
    (h : parseXml xmlNodeGetContent (some nodes) sb = .ok result) : ReportContentsSet nodes := by
  obtain ⟨sb1, htop, h⟩ := bind_eq_ok.mp h
  obtain ⟨sb2, hrecords⟩ := ok_behind_comma h
  obtain ⟨sb3, hrecords, -⟩ := bind_eq_ok.mp hrecords
  obtain ⟨sb4, -, h⟩ := bind_eq_ok.mp hrecords
  obtain ⟨sb5, hloop, -⟩ := bind_eq_ok.mp h
  exact ⟨contentsSet_of_topLoop hget htop, contentsSet_of_recordsLoop hget hloop⟩

end

/-! ## The texts -/

theorem bytes_quote : bytes "\"" = [34] := bytes_ofList _

theorem bytes_comma : bytes "," = [44] := bytes_ofList _

theorem bytes_open : bytes "\x7b" = [123] := bytes_ofList _

theorem bytes_close : bytes "\x7d" = [125] := bytes_ofList _

/-- Between a name and an object. -/
theorem bytes_object : bytes "\": \x7b" = [34, 58, 32, 123] := bytes_ofList _

/-- The texts of the elements. -/
def memberTexts (nodes : XmlNode) : List Bytes := (elementPieces nodes).map List.flatten

/-- The elements in braces. -/
def objectText (nodes : XmlNode) : Bytes := 123 :: [44].intercalate (memberTexts nodes) ++ [125]

/-- The text of the value of an element. -/
def valueText (children : XmlNode) : Bytes :=
  if children.next.isNull then 34 :: jsonEscape (nodeContent children) ++ [34]
  else objectText children

def memberText (name : Bytes) (children : XmlNode) : Bytes :=
  34 :: name ++ [34, 58, 32] ++ valueText children

theorem flatten_separated (pieces : List (List Bytes)) :
    (separated true pieces).flatten = [44].intercalate (pieces.map List.flatten) := by
  cases pieces with
  | nil => rfl
  | cons first rest =>
    induction rest generalizing first with
    | nil => simp [separated]
    | cons second rest ih =>
      have hfirst : separated true (first :: second :: rest) =
          first ++ ([bytes ","] ++ separated true (second :: rest)) := rfl
      rw [hfirst, List.flatten_append, List.flatten_append, ih second, List.flatten_singleton,
        bytes_comma, List.map_cons, List.map_cons, List.map_cons, List.intercalate_cons_cons,
        List.append_assoc]

theorem memberTexts_element (name : XmlName) (children next : XmlNode) :
    memberTexts (.element name children next) =
      memberText name.text children :: memberTexts next := by
  have hstring : bytes "\": \"" = [34, 58, 32, 34] := bytes_ofList _
  have hempty : bytes "\": \"\"" = [34, 58, 32, 34, 34] := bytes_ofList _
  rw [memberTexts, elementPieces, List.map_cons, memberText, valueText]
  congr 1
  cases hnull : children.isNull with
  | true =>
    cases children with
    | null => simp [bytes_quote, hempty, XmlNode.next, XmlNode.isNull, nodeContent, jsonEscape]
    | element name children next => cases hnull
    | other kind content next => cases hnull
  | false =>
    cases hlone : children.next.isNull with
    | true => simp [bytes_quote, hstring]
    | false =>
      simp [bytes_quote, bytes_object, bytes_close, openPieces, flatten_separated, objectText,
        memberTexts]

theorem flatten_toJsonPieces_none (nodes : XmlNode) :
    (toJsonPieces none nodes).flatten = objectText nodes := by
  simp [toJsonPieces, openPieces, bytes_open, bytes_close, flatten_separated, objectText,
    memberTexts]

theorem flatten_toJsonPieces_some (name : Bytes) (nodes : XmlNode) :
    (toJsonPieces (some name) nodes).flatten = 34 :: name ++ [34, 58, 32] ++ objectText nodes := by
  simp [toJsonPieces, openPieces, bytes_quote, bytes_object, bytes_close, flatten_separated,
    objectText, memberTexts]

/-! ## Reading the texts -/

/-- The members that stand for the elements. -/
def members : XmlNode → List (Bytes × Json)
  | .null => []
  | .other _ _ next => members next
  | .element name children next =>
    (name.text,
      if children.next.isNull then .string (nodeContent children)
      else .object (members children)) :: members next

/-- **No text that is printed has a quote.** -/
def QuoteFree : XmlNode → Prop
  | .null => True
  | .other _ _ next => QuoteFree next
  | .element _ children next =>
    (if children.next.isNull then 34 ∉ nodeContent children else QuoteFree children) ∧
      QuoteFree next

instance decQuoteFree : (nodes : XmlNode) → Decidable (QuoteFree nodes)
  | .null => .isTrue trivial
  | .other _ _ next => decQuoteFree next
  | .element _ children next =>
    have := decQuoteFree children
    have := decQuoteFree next
    inferInstanceAs (Decidable ((if children.next.isNull then 34 ∉ nodeContent children
      else QuoteFree children) ∧ QuoteFree next))

theorem contentText_valid {content : Option XmlText} {c : UInt8} (h : c ∈ contentText content) :
    isCharByte c = true := by
  cases content with
  | none => cases h
  | some text => exact text.valid c h

theorem textOf_valid {nodes : XmlNode} {c : UInt8} (h : c ∈ textOf nodes) : isCharByte c = true := by
  induction nodes with
  | null => cases h
  | element name children next ihc ih =>
    rcases List.mem_append.mp h with hc | hc
    · exact ihc hc
    · exact ih hc
  | other kind content next ih =>
    rcases List.mem_append.mp h with hc | hc
    · split at hc
      · exact contentText_valid hc
      · cases hc
    · exact ih hc

theorem nodeContent_valid {node : XmlNode} {c : UInt8} (h : c ∈ nodeContent node) :
    isCharByte c = true := by
  cases node with
  | null => cases h
  | element name children next => exact textOf_valid h
  | other kind content next => exact contentText_valid h

theorem scanString_escapeByte {c : UInt8} (hchar : isCharByte c = true) (hquote : c ≠ 34) (s : Bytes) :
    scanString (escapeByte c ++ s) = (scanString s).map fun p => (c :: p.1, p.2) := by
  unfold escapeByte
  split
  · next h => rw [h]; exact scanString_escape (by decide) (by decide) s
  · split
    · next h => rw [h]; exact scanString_escape (by decide) (by decide) s
    · split
      · next h => rw [h]; exact scanString_escape (by decide) (by decide) s
      · split
        · next h => rw [h]; exact scanString_escape (by decide) (by decide) s
        · next h9 h10 h92 h13 =>
          refine scanString_plain hquote h92 (fun hlt => ?_) s
          simp [isCharByte, h9, h10, h13] at hchar
          exact absurd hlt (UInt8.not_lt.mpr hchar)

/-- **An escaped text without quotes reads as the text.** -/
theorem isStringText_jsonEscape {s : Bytes} (hchars : ∀ c ∈ s, isCharByte c = true)
    (hquote : 34 ∉ s) : IsStringText (jsonEscape s) s := by
  intro rest
  induction s with
  | nil => exact scanString_quote rest
  | cons c s ih =>
    have hc : c ≠ 34 := fun h => hquote (h ▸ List.mem_cons_self)
    have hs := ih (fun c hc => hchars c (List.mem_cons_of_mem _ hc))
      (fun h => hquote (List.mem_cons_of_mem _ h))
    rw [jsonEscape, List.flatMap_cons, List.append_assoc,
      scanString_escapeByte (hchars c List.mem_cons_self) hc]
    rw [jsonEscape] at hs
    rw [hs]
    rfl

/-- A quote is not escaped and ends the string. -/
example : scanString (jsonEscape [9, 34, 97] ++ [34]) = some ([9], [97, 34]) := by decide

theorem isNameByte_plain {c : UInt8} (h : isNameByte c = true) : c ≠ 34 ∧ c ≠ 92 ∧ ¬c < 32 := by
  refine ⟨?_, ?_, fun hlt => ?_⟩
  · rintro rfl
    exact absurd h (by decide)
  · rintro rfl
    exact absurd h (by decide)
  · have hlt : c.toNat < 32 := UInt8.lt_iff_toNat_lt.mp hlt
    simp only [isNameByte, Bool.or_eq_true, Bool.and_eq_true, decide_eq_true_eq, beq_iff_eq,
      UInt8.le_iff_toNat_le, ← UInt8.toNat_inj, UInt8.reduceToNat] at h
    omega

/-- A name reads as itself. -/
theorem isStringText_name {text : Bytes} (valid : ∀ c ∈ text, isNameByte c = true) :
    IsStringText text text := by
  intro rest
  induction text with
  | nil => exact scanString_quote rest
  | cons c s ih =>
    obtain ⟨hquote, hslash, hc⟩ := isNameByte_plain (valid c List.mem_cons_self)
    rw [List.cons_append, scanString_plain hquote hslash hc,
      ih fun c hc => valid c (List.mem_cons_of_mem _ hc)]
    rfl

/-- **The texts of the elements are members of an object.** -/
theorem memberTexts_members {nodes : XmlNode} (h : QuoteFree nodes) :
    List.Forall₂ IsMember (memberTexts nodes) (members nodes) := by
  induction nodes with
  | null => exact .nil
  | other kind content next ih => exact ih h
  | element name children next ihc ih =>
    obtain ⟨hchildren, hnext⟩ := h
    rw [memberTexts_element, members]
    refine .cons ((isStringText_name name.valid).isMember ?_) (ih hnext)
    rw [valueText]
    split at hchildren
    · next hlone =>
      rw [if_pos hlone, if_pos hlone]
      exact (isStringText_jsonEscape (fun c hc => nodeContent_valid hc) hchildren).isValue
    · next hlone =>
      rw [if_neg hlone, if_neg hlone]
      exact isValue_object (ihc hchildren)

theorem objectText_isValue {nodes : XmlNode} (h : QuoteFree nodes) :
    IsValue (objectText nodes) (.object (members nodes)) :=
  isValue_object (memberTexts_members h)

end ComfirmDmarc.MailHandler
