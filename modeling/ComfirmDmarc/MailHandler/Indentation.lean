import ComfirmDmarc.MailHandler.ReportDocument

/-!
# MailHandler -- indented reports

`to_json` prints an element with one child as a string and one with several as
an object, and white space between elements counts as a child. What a report
becomes is the same for every indentation exactly where no element has one
element and nothing else below it.
-/

namespace ComfirmDmarc.MailHandler

open CMemory JsonText

/-! ## Indentation -/

/-- One of the siblings is an element. -/
def XmlNode.hasElement : XmlNode → Bool
  | .null => false
  | .other _ _ next => next.hasElement
  | .element _ _ _ => true

/-- A text of white space only. -/
def isIndent (kind : NodeKind) (content : Option XmlText) : Bool :=
  kind = .text && content.any fun text => text.text.all isWs

/-- The siblings without their indentation, where they stand beside an element,
and all lists below them without theirs. -/
def dropIndent (beside : Bool) : XmlNode → XmlNode
  | .null => .null
  | .other kind content next =>
    if beside && isIndent kind content then dropIndent beside next
    else .other kind content (dropIndent beside next)
  | .element name children next =>
    .element name (dropIndent children.hasElement children) (dropIndent beside next)

/-- The tree without indentation. Two trees become the same one exactly if white
space between elements is all that they differ by. -/
def minify (nodes : XmlNode) : XmlNode := dropIndent nodes.hasElement nodes

/-- **The document becomes the same text however it is indented.** -/
def IndentationFree (xmlNodeGetContent : XmlNode → Option Bytes) (nodes : XmlNode) : Prop :=
  ∀ nodes', minify nodes' = minify nodes → ∃ sb sb',
    parseXml xmlNodeGetContent (some nodes) stringBufferInit = .ok (0, sb) ∧
      parseXml xmlNodeGetContent (some nodes') stringBufferInit = .ok (0, sb') ∧
      sb.content = sb'.content

/-- An element and nothing else. -/
def loneElement : XmlNode → Bool
  | .element _ _ next => next.isNull
  | _ => false

/-- **No element has one element and, indentation aside, nothing else below it.** -/
def NoLoneElement : XmlNode → Prop
  | .null => True
  | .other _ _ next => NoLoneElement next
  | .element _ children next =>
    loneElement (minify children) = false ∧ NoLoneElement children ∧ NoLoneElement next

def ReportNoLoneElement (nodes : XmlNode) : Prop :=
  (∀ t ∈ topElements nodes, NoLoneElement t.2) ∧ ∀ r ∈ recordElements nodes, NoLoneElement r

instance decNoLoneElement : (nodes : XmlNode) → Decidable (NoLoneElement nodes)
  | .null => .isTrue trivial
  | .other _ _ next => decNoLoneElement next
  | .element _ children next =>
    have := decNoLoneElement children
    have := decNoLoneElement next
    inferInstanceAs (Decidable (loneElement (minify children) = false ∧
      NoLoneElement children ∧ NoLoneElement next))

instance (nodes : XmlNode) : Decidable (ReportNoLoneElement nodes) :=
  inferInstanceAs (Decidable ((∀ t ∈ topElements nodes, NoLoneElement t.2) ∧
    ∀ r ∈ recordElements nodes, NoLoneElement r))

/-! ## Trees without indentation -/

theorem dropIndent_other (beside : Bool) (kind : NodeKind) (content : Option XmlText) (next : XmlNode) :
    dropIndent beside (.other kind content next) =
      if beside && isIndent kind content then dropIndent beside next
      else .other kind content (dropIndent beside next) := rfl

theorem dropIndent_element (beside : Bool) (name : XmlName) (children next : XmlNode) :
    dropIndent beside (.element name children next) =
      .element name (minify children) (dropIndent beside next) := rfl

/-- What does not look at texts is the same with a text as without it. -/
theorem dropIndent_ignores {β : Type*} {F : XmlNode → β}
    (hF : ∀ kind content next, F (.other kind content next) = F next) (beside : Bool)
    (kind : NodeKind) (content : Option XmlText) (next : XmlNode) :
    F (dropIndent beside (.other kind content next)) = F (dropIndent beside next) := by
  rw [dropIndent_other]
  split
  · rfl
  · exact hF _ _ _

theorem hasElement_dropIndent (beside : Bool) (nodes : XmlNode) :
    (dropIndent beside nodes).hasElement = nodes.hasElement := by
  induction nodes with
  | null => rfl
  | element name children next => rfl
  | other kind content next ih => exact (dropIndent_ignores (fun _ _ _ => rfl) _ _ _ _).trans ih

theorem dropIndent_dropIndent (beside : Bool) (nodes : XmlNode) :
    dropIndent beside (dropIndent beside nodes) = dropIndent beside nodes := by
  induction nodes generalizing beside with
  | null => rfl
  | element name children next ihc ih =>
    rw [dropIndent_element, dropIndent_element, minify, minify, hasElement_dropIndent, ihc, ih]
  | other kind content next ih =>
    rw [dropIndent_other]
    split
    · exact ih beside
    · next h => rw [dropIndent_other, if_neg h, ih]

theorem minify_minify (nodes : XmlNode) : minify (minify nodes) = minify nodes := by
  rw [minify, minify, hasElement_dropIndent, dropIndent_dropIndent]

/-- Siblings without an element keep their white space. -/
theorem minify_of_hasElement_false {nodes : XmlNode} (h : nodes.hasElement = false) :
    minify nodes = nodes := by
  rw [minify, h]
  induction nodes with
  | null => rfl
  | element name children next => cases h
  | other kind content next ih =>
    rw [dropIndent_other, if_neg (by simp), ih h]

theorem noLoneElement_of_hasElement_false {nodes : XmlNode} (h : nodes.hasElement = false) :
    NoLoneElement nodes := by
  induction nodes with
  | null => trivial
  | element name children next => cases h
  | other kind content next ih => exact ih h

theorem noLoneElement_dropIndent (beside : Bool) (nodes : XmlNode) :
    NoLoneElement (dropIndent beside nodes) ↔ NoLoneElement nodes := by
  induction nodes generalizing beside with
  | null => rfl
  | element name children next ihc ih =>
    rw [dropIndent_element, NoLoneElement, NoLoneElement, minify_minify, ih, minify, ihc]
  | other kind content next ih =>
    exact (dropIndent_ignores (fun _ _ _ => rfl) _ _ _ _).to_iff.trans (ih beside)

/-- Siblings of which one is an element and that are not that one alone. -/
theorem several_of_not_lone {nodes : XmlNode} (helement : nodes.hasElement = true)
    (hlone : loneElement nodes = false) : nodes.isNull = false ∧ nodes.next.isNull = false := by
  cases nodes with
  | null => cases helement
  | element name children next => exact ⟨rfl, hlone⟩
  | other kind content next =>
    refine ⟨rfl, ?_⟩
    cases next with
    | null => cases helement
    | element name children next => rfl
    | other kind content next => rfl

/-- White space is left out, nothing is put in. -/
theorem several_of_dropIndent {beside : Bool} {nodes : XmlNode}
    (h : (dropIndent beside nodes).next.isNull = false) : nodes.next.isNull = false := by
  cases nodes with
  | null => exact h
  | element name children next =>
    cases next with
    | null => exact h
    | element name children next => rfl
    | other kind content next => rfl
  | other kind content next =>
    cases next with
    | null =>
      rw [dropIndent_other] at h
      split at h
      · exact h
      · exact h
    | element name children next => rfl
    | other kind content next => rfl

theorem isNull_of_hasElement {nodes : XmlNode} (h : nodes.hasElement = true) :
    nodes.isNull = false := by
  cases nodes with
  | null => cases h
  | element name children next => rfl
  | other kind content next => rfl

/-! ## The same strings -/

/-- Without lone elements the strings do not depend on the indentation. -/
theorem elementPieces_dropIndent (beside : Bool) {nodes : XmlNode} (h : NoLoneElement nodes) :
    elementPieces (dropIndent beside nodes) = elementPieces nodes := by
  induction nodes generalizing beside with
  | null => rfl
  | other kind content next ih =>
    exact (dropIndent_ignores (fun _ _ _ => rfl) _ _ _ _).trans (ih beside h)
  | element name children next ihc ih =>
    obtain ⟨hlone, hchildren, hnext⟩ := h
    rw [dropIndent_element, elementPieces, elementPieces, ih beside hnext]
    cases helement : children.hasElement with
    | false => rw [minify_of_hasElement_false helement]
    | true =>
      -- an element and something else in both forms, so both are objects
      have hmin : (minify children).hasElement = true := by
        rw [minify, hasElement_dropIndent, helement]
      obtain ⟨hnull, hseveral⟩ := several_of_not_lone hmin hlone
      have hsame : elementPieces (minify children) = elementPieces children := ihc _ hchildren
      rw [hnull, hseveral, isNull_of_hasElement helement, several_of_dropIndent hseveral, hsame]
      rfl

theorem toJsonPieces_minify (name : Option Bytes) {nodes : XmlNode} (h : NoLoneElement nodes) :
    toJsonPieces name (minify nodes) = toJsonPieces name nodes := by
  rw [toJsonPieces, minify, elementPieces_dropIndent _ h, toJsonPieces]

theorem topElements_dropIndent (beside : Bool) (nodes : XmlNode) :
    topElements (dropIndent beside nodes) =
      (topElements nodes).map fun t => (t.1, minify t.2) := by
  induction nodes with
  | null => rfl
  | other kind content next ih => exact (dropIndent_ignores (fun _ _ _ => rfl) _ _ _ _).trans ih
  | element name children next _ ih =>
    rw [dropIndent_element, topElements, topElements, ih]
    split
    · rfl
    · split
      · rfl
      · rfl

theorem recordElements_dropIndent (beside : Bool) (nodes : XmlNode) :
    recordElements (dropIndent beside nodes) = (recordElements nodes).map minify := by
  induction nodes with
  | null => rfl
  | other kind content next ih => exact (dropIndent_ignores (fun _ _ _ => rfl) _ _ _ _).trans ih
  | element name children next _ ih =>
    rw [dropIndent_element, recordElements, recordElements, ih]
    split
    · rfl
    · rfl

theorem topPieces_dropIndent (beside started : Bool) {nodes : XmlNode}
    (h : ∀ t ∈ topElements nodes, NoLoneElement t.2) :
    topPieces started (dropIndent beside nodes) = topPieces started nodes := by
  induction nodes generalizing started with
  | null => rfl
  | other kind content next ih =>
    exact (dropIndent_ignores (fun _ _ _ => rfl) _ _ _ _).trans (ih started h)
  | element name children next _ ih =>
    rw [dropIndent_element, topPieces, topPieces]
    rw [topElements] at h
    split
    · next hmeta =>
      rw [if_pos hmeta, List.forall_mem_cons] at h
      rw [toJsonPieces_minify _ h.1, ih true h.2]
    · next hmeta =>
      rw [if_neg hmeta] at h
      split
      · next hpolicy =>
        rw [if_pos hpolicy, List.forall_mem_cons] at h
        rw [toJsonPieces_minify _ h.1, ih true h.2]
      · next hpolicy =>
        rw [if_neg hpolicy] at h
        exact ih started h

theorem recordPieces_dropIndent (beside : Bool) {nodes : XmlNode}
    (h : ∀ r ∈ recordElements nodes, NoLoneElement r) :
    recordPieces (dropIndent beside nodes) = recordPieces nodes := by
  induction nodes with
  | null => rfl
  | other kind content next ih =>
    exact (dropIndent_ignores (fun _ _ _ => rfl) _ _ _ _).trans (ih h)
  | element name children next _ ih =>
    rw [dropIndent_element, recordPieces, recordPieces]
    rw [recordElements] at h
    split
    · next hrecord =>
      rw [if_pos hrecord, List.forall_mem_cons] at h
      rw [toJsonPieces_minify _ h.1, ih h.2]
    · next hrecord =>
      rw [if_neg hrecord] at h
      exact ih h

theorem anyTop_dropIndent (beside : Bool) (nodes : XmlNode) :
    anyTop (dropIndent beside nodes) = anyTop nodes := by
  rw [anyTop_eq, anyTop_eq, topElements_dropIndent, List.isEmpty_map]

/-- **Without lone elements a report and its minified form become the same strings.** -/
theorem reportPieces_minify {nodes : XmlNode} (h : ReportNoLoneElement nodes) :
    reportPieces false (minify nodes) = reportPieces false nodes := by
  rw [minify, reportPieces, reportPieces, topPieces_dropIndent _ _ h.1, anyTop_dropIndent,
    recordsPieces, recordsPieces, recordPieces_dropIndent _ h.2]

theorem reportNoLoneElement_minify (nodes : XmlNode) :
    ReportNoLoneElement (minify nodes) ↔ ReportNoLoneElement nodes := by
  rw [ReportNoLoneElement, ReportNoLoneElement, minify, topElements_dropIndent,
    recordElements_dropIndent, List.forall_mem_map, List.forall_mem_map]
  simp only [minify, noLoneElement_dropIndent]

/-- Nor do the contents that are printed. -/
theorem contentsSet_dropIndent (beside : Bool) {nodes : XmlNode} (h : NoLoneElement nodes) :
    ContentsSet (dropIndent beside nodes) ↔ ContentsSet nodes := by
  induction nodes generalizing beside with
  | null => rfl
  | other kind content next ih =>
    exact (dropIndent_ignores (fun _ _ _ => rfl) _ _ _ _).to_iff.trans (ih beside h)
  | element name children next ihc ih =>
    obtain ⟨hlone, hchildren, hnext⟩ := h
    rw [dropIndent_element, ContentsSet, ContentsSet, ih beside hnext]
    cases helement : children.hasElement with
    | false => rw [minify_of_hasElement_false helement]
    | true =>
      have hmin : (minify children).hasElement = true := by
        rw [minify, hasElement_dropIndent, helement]
      have hseveral := (several_of_not_lone hmin hlone).2
      have hsame : ContentsSet (minify children) ↔ ContentsSet children := ihc _ hchildren
      rw [hseveral, several_of_dropIndent hseveral, if_neg (by decide), if_neg (by decide), hsame]

theorem reportContentsSet_minify {nodes : XmlNode} (h : ReportNoLoneElement nodes) :
    ReportContentsSet (minify nodes) ↔ ReportContentsSet nodes := by
  rw [ReportContentsSet, ReportContentsSet, minify, topElements_dropIndent,
    recordElements_dropIndent, List.forall_mem_map, List.forall_mem_map]
  have htops : ∀ t ∈ topElements nodes, (ContentsSet (minify t.2) ↔ ContentsSet t.2) :=
    fun t ht => contentsSet_dropIndent _ (h.1 t ht)
  have hrecords : ∀ r ∈ recordElements nodes, (ContentsSet (minify r) ↔ ContentsSet r) :=
    fun r hr => contentsSet_dropIndent _ (h.2 r hr)
  exact and_congr (forall₂_congr htops) (forall₂_congr hrecords)

theorem reportNoLoneElement_of_minify_eq {nodes nodes' : XmlNode} (h : minify nodes' = minify nodes)
    (hlone : ReportNoLoneElement nodes) : ReportNoLoneElement nodes' := by
  rw [← reportNoLoneElement_minify, h, reportNoLoneElement_minify]
  exact hlone

theorem reportContentsSet_of_minify_eq {nodes nodes' : XmlNode} (h : minify nodes' = minify nodes)
    (hlone : ReportNoLoneElement nodes) (hset : ReportContentsSet nodes) :
    ReportContentsSet nodes' := by
  rw [← reportContentsSet_minify (reportNoLoneElement_of_minify_eq h hlone), h,
    reportContentsSet_minify hlone]
  exact hset

theorem reportPieces_of_minify_eq {nodes nodes' : XmlNode} (h : minify nodes' = minify nodes)
    (hlone : ReportNoLoneElement nodes) : reportPieces false nodes' = reportPieces false nodes := by
  have hlone' := reportNoLoneElement_of_minify_eq h hlone
  calc reportPieces false nodes'
      = reportPieces false (minify nodes') := (reportPieces_minify hlone').symm
    _ = reportPieces false (minify nodes) := by rw [h]
    _ = reportPieces false nodes := reportPieces_minify hlone

/-! ## Indenting -/

/-- One line feed. -/
def lineFeed : XmlText := ⟨[10], by decide +kernel⟩

/-- A line feed in front of all siblings of which one is an element. -/
def indent : XmlNode → XmlNode
  | .null => .null
  | .other kind content next => .other kind content (indent next)
  | .element name children next =>
    .element name (if children.hasElement then .other .text (some lineFeed) (indent children) else children)
      (indent next)

theorem hasElement_indent (nodes : XmlNode) : (indent nodes).hasElement = nodes.hasElement := by
  induction nodes with
  | null => rfl
  | element name children next => rfl
  | other kind content next ih => exact ih

theorem dropIndent_indent (beside : Bool) (nodes : XmlNode) :
    dropIndent beside (indent nodes) = dropIndent beside nodes := by
  induction nodes generalizing beside with
  | null => rfl
  | other kind content next ih => rw [indent, dropIndent_other, dropIndent_other, ih]
  | element name children next ihc ih =>
    rw [indent, dropIndent_element, dropIndent_element, minify, minify, ih]
    cases helement : children.hasElement with
    | false => rw [if_neg (by decide), helement]
    | true =>
      have hfeed : isIndent .text (some lineFeed) = true := by decide
      have hbeside : XmlNode.hasElement (.other .text (some lineFeed) (indent children)) = true :=
        (hasElement_indent children).trans helement
      rw [if_pos rfl, hbeside, dropIndent_other, hfeed, Bool.and_self, if_pos rfl, ihc]

theorem minify_indent (nodes : XmlNode) : minify (indent nodes) = minify nodes := by
  rw [minify, hasElement_indent, dropIndent_indent, minify]

/-! ## Comparing the texts -/

/-- Text after text, with a comma in front of each but the first one. -/
def commaTexts (first : Bool) : List Bytes → Bytes
  | [] => []
  | text :: rest => (if first then [] else [44]) ++ text ++ commaTexts false rest

theorem commaTexts_true (texts : List Bytes) : commaTexts true texts = [44].intercalate texts := by
  cases texts with
  | nil => rfl
  | cons first rest =>
    induction rest generalizing first with
    | nil => simp [commaTexts]
    | cons second rest ih =>
      have hfirst : commaTexts true (first :: second :: rest) =
          first ++ ([44] ++ commaTexts true (second :: rest)) := rfl
      rw [hfirst, ih second, List.intercalate_cons_cons, List.append_assoc]

theorem objectText_append (nodes : XmlNode) (rest : Bytes) :
    objectText nodes ++ rest = 123 :: (commaTexts true (memberTexts nodes) ++ 125 :: rest) := by
  rw [objectText, commaTexts_true]
  simp

/-- The value of an element that stands in one line is the value of the indented one
only where both are objects. -/
theorem valueText_append {children : XmlNode} {r r' : Bytes} (helement : children.hasElement = true)
    (h : valueText (minify children) ++ r =
      valueText (.other .text (some lineFeed) (indent children)) ++ r') :
    loneElement (minify children) = false ∧
      commaTexts true (memberTexts (minify children)) ++ 125 :: r =
        commaTexts true (memberTexts (indent children)) ++ 125 :: r' := by
  have hindented : XmlNode.isNull (XmlNode.next (.other .text (some lineFeed) (indent children))) = false :=
    isNull_of_hasElement ((hasElement_indent children).trans helement)
  have hsame : memberTexts (.other .text (some lineFeed) (indent children)) =
      memberTexts (indent children) := rfl
  rw [valueText, valueText, hindented] at h
  cases hlone : (minify children).next.isNull with
  | true =>
    -- a quote against a brace
    rw [hlone] at h
    cases h
  | false =>
    rw [hlone] at h
    simp only [Bool.false_eq_true, if_false, objectText_append, hsame] at h
    refine ⟨?_, (List.cons.inj h).2⟩
    cases hmin : minify children with
    | null => rfl
    | other kind content next => rfl
    | element name inner next =>
      rw [hmin] at hlone
      exact hlone

/-- **Siblings that become one text in both forms have no lone element below them.** -/
theorem noLoneElement_of_commaTexts {nodes : XmlNode} {first beside : Bool} {r r' : Bytes}
    (h : commaTexts first (memberTexts (dropIndent beside nodes)) ++ 125 :: r =
      commaTexts first (memberTexts (indent nodes)) ++ 125 :: r') :
    NoLoneElement nodes ∧ r = r' := by
  induction nodes generalizing first beside r r' with
  | null => exact ⟨trivial, (List.cons.inj h).2⟩
  | other kind content next ih =>
    rw [dropIndent_other] at h
    split at h
    · exact ih h
    · exact ih h
  | element name children next ihc ih =>
    rw [dropIndent_element, indent, memberTexts_element, memberTexts_element, commaTexts,
      commaTexts, memberText, memberText] at h
    simp only [List.append_assoc, List.append_cancel_left_eq] at h
    cases helement : children.hasElement with
    | false =>
      -- no element below it: both forms are the same
      rw [helement, minify_of_hasElement_false helement] at h
      obtain ⟨hnext, hrest⟩ := ih (List.append_cancel_left h)
      refine ⟨⟨?_, noLoneElement_of_hasElement_false helement, hnext⟩, hrest⟩
      rw [minify_of_hasElement_false helement]
      cases children with
      | null => rfl
      | other kind content next => rfl
      | element name children next => cases helement
    | true =>
      rw [helement, if_pos rfl] at h
      obtain ⟨hlone, hobject⟩ := valueText_append helement h
      obtain ⟨hchildren, hrest⟩ := ihc hobject
      obtain ⟨hnext, hr⟩ := ih hrest
      exact ⟨⟨hlone, hchildren, hnext⟩, hr⟩

theorem noLoneElement_of_objectText {nodes : XmlNode} {r r' : Bytes}
    (h : objectText (minify nodes) ++ r = objectText (indent nodes) ++ r') :
    NoLoneElement nodes ∧ r = r' := by
  rw [objectText_append, objectText_append] at h
  exact noLoneElement_of_commaTexts (List.cons.inj h).2

/-! ## The texts of a report -/

def indentBelow (children : XmlNode) : XmlNode :=
  if children.hasElement then .other .text (some lineFeed) (indent children) else children

theorem objectText_indentBelow (children : XmlNode) :
    objectText (indentBelow children) = objectText (indent children) := by
  rw [indentBelow]
  split
  · rfl
  · next helement =>
    have hsame : indent children = children := by
      induction children with
      | null => rfl
      | element name children next => exact absurd rfl helement
      | other kind content next ih => rw [indent, ih helement]
    rw [hsame]

theorem topElements_indent (nodes : XmlNode) :
    topElements (indent nodes) = (topElements nodes).map fun t => (t.1, indentBelow t.2) := by
  induction nodes with
  | null => rfl
  | other kind content next ih => exact ih
  | element name children next _ ih =>
    rw [indent, ← indentBelow, topElements, topElements, ih]
    split
    · rfl
    · split
      · rfl
      · rfl

theorem recordElements_indent (nodes : XmlNode) :
    recordElements (indent nodes) = (recordElements nodes).map indentBelow := by
  induction nodes with
  | null => rfl
  | other kind content next ih => exact ih
  | element name children next _ ih =>
    rw [indent, ← indentBelow, recordElements, recordElements, ih]
    split
    · rfl
    · rfl

theorem noLoneElement_of_topText {t : TopKind × XmlNode} {r r' : Bytes}
    (h : topText (t.1, minify t.2) ++ r = topText (t.1, indentBelow t.2) ++ r') :
    NoLoneElement t.2 ∧ r = r' := by
  rw [topText, topText, objectText_indentBelow] at h
  simp only [List.append_assoc, List.append_cancel_left_eq] at h
  exact noLoneElement_of_objectText h

theorem noLoneElement_of_topRest {ts : List (TopKind × XmlNode)} {r r' : Bytes}
    (h : topRest (ts.map fun t => (t.1, minify t.2)) ++ r =
      topRest (ts.map fun t => (t.1, indentBelow t.2)) ++ r') :
    (∀ t ∈ ts, NoLoneElement t.2) ∧ r = r' := by
  induction ts with
  | nil => exact ⟨fun t ht => absurd ht List.not_mem_nil, h⟩
  | cons t ts ih =>
    rw [List.map_cons, List.map_cons, topRest, topRest, List.append_assoc, List.append_assoc] at h
    have htext : topText (t.1, minify t.2) ++ (topRest (ts.map fun t => (t.1, minify t.2)) ++ r) =
        topText (t.1, indentBelow t.2) ++ (topRest (ts.map fun t => (t.1, indentBelow t.2)) ++ r') := by
      split at h
      · exact (List.cons.inj h).2
      · exact h
    obtain ⟨ht, hrest⟩ := noLoneElement_of_topText htext
    obtain ⟨hts, hr⟩ := ih hrest
    exact ⟨List.forall_mem_cons.mpr ⟨ht, hts⟩, hr⟩

theorem noLoneElement_of_topsText {ts : List (TopKind × XmlNode)} {r r' : Bytes}
    (h : topsText (ts.map fun t => (t.1, minify t.2)) ++ r =
      topsText (ts.map fun t => (t.1, indentBelow t.2)) ++ r') :
    (∀ t ∈ ts, NoLoneElement t.2) ∧ r = r' := by
  cases ts with
  | nil => exact ⟨fun t ht => absurd ht List.not_mem_nil, h⟩
  | cons t ts =>
    rw [List.map_cons, List.map_cons, topsText, topsText, List.append_assoc, List.append_assoc] at h
    obtain ⟨ht, hrest⟩ := noLoneElement_of_topText h
    obtain ⟨hts, hr⟩ := noLoneElement_of_topRest hrest
    exact ⟨List.forall_mem_cons.mpr ⟨ht, hts⟩, hr⟩

theorem noLoneElement_of_records {rs : List XmlNode} {first : Bool} {r r' : Bytes}
    (h : commaTexts first ((rs.map minify).map objectText) ++ 93 :: r =
      commaTexts first ((rs.map indentBelow).map objectText) ++ 93 :: r') :
    (∀ n ∈ rs, NoLoneElement n) ∧ r = r' := by
  induction rs generalizing first with
  | nil => exact ⟨fun n hn => absurd hn List.not_mem_nil, (List.cons.inj h).2⟩
  | cons n rs ih =>
    simp only [List.map_cons, commaTexts, objectText_indentBelow, List.append_assoc,
      List.append_cancel_left_eq] at h
    obtain ⟨hn, hrest⟩ := noLoneElement_of_objectText h
    obtain ⟨hrs, hr⟩ := ih hrest
    exact ⟨List.forall_mem_cons.mpr ⟨hn, hrs⟩, hr⟩

/-- **A report that becomes one text in both forms has no lone elements.** -/
theorem reportNoLoneElement_of_flatten {nodes : XmlNode}
    (h : (reportPieces false (minify nodes)).flatten =
      (reportPieces false (indent nodes)).flatten) : ReportNoLoneElement nodes := by
  rw [flatten_reportPieces, flatten_reportPieces, topElements_indent, minify,
    topElements_dropIndent, recordsText, recordsText, recordElements_indent,
    recordElements_dropIndent, ← commaTexts_true, ← commaTexts_true] at h
  simp only [List.append_assoc] at h
  obtain ⟨htops, hrest⟩ := noLoneElement_of_topsText h
  simp only [List.map_eq_nil_iff, List.append_cancel_left_eq, List.cons_append, List.cons.injEq,
    true_and] at hrest
  exact ⟨htops, (noLoneElement_of_records hrest).1⟩

section

variable {xmlNodeGetContent : XmlNode → Option Bytes}

theorem indentationFree_of_noLone (hget : GetsContent xmlNodeGetContent) {nodes : XmlNode}
    (hlone : ReportNoLoneElement nodes) (hset : ReportContentsSet nodes)
    (hfit : Fit 0 (reportPieces false nodes)) : IndentationFree xmlNodeGetContent nodes := by
  intro nodes' hmin
  have hsame := reportPieces_of_minify_eq hmin hlone
  obtain ⟨sb, hparse, hcontent⟩ := parseXml_init_ok hget hset hfit
  rw [← hsame] at hfit
  obtain ⟨sb', hparse', hcontent'⟩ :=
    parseXml_init_ok hget (reportContentsSet_of_minify_eq hmin hlone hset) hfit
  refine ⟨sb, sb', hparse, hparse', ?_⟩
  rw [hcontent, hcontent', hsame]

theorem content_of_parseXml (hget : GetsContent xmlNodeGetContent) {nodes : XmlNode} {code : Int}
    {sb : StringBuffer}
    (h : parseXml xmlNodeGetContent (some nodes) stringBufferInit = .ok (code, sb)) :
    sb.content = (reportPieces false nodes).flatten := by
  have hset := contentsSet_of_parseXml hget h
  obtain ⟨sb', hparse, hcontent⟩ := parseXml_init_ok hget hset (fit_of_parseXml hget hset h)
  rw [h] at hparse
  cases hparse
  exact hcontent

theorem noLone_of_indentationFree (hget : GetsContent xmlNodeGetContent) {nodes : XmlNode}
    (h : IndentationFree xmlNodeGetContent nodes) : ReportNoLoneElement nodes := by
  obtain ⟨sb, sb1, hparse, hparse1, hcontent1⟩ := h (minify nodes) (minify_minify nodes)
  obtain ⟨sb', sb2, hparse', hparse2, hcontent2⟩ := h (indent nodes) (minify_indent nodes)
  rw [hparse] at hparse'
  cases hparse'
  refine reportNoLoneElement_of_flatten ?_
  rw [← content_of_parseXml hget hparse1, ← content_of_parseXml hget hparse2, ← hcontent1,
    hcontent2]

/-- **The text of a report is free of its indentation exactly if the report has
no lone elements**, as long as no content is `NULL` and the strings fit. -/
theorem indentationFree_iff (hget : GetsContent xmlNodeGetContent) (nodes : XmlNode) :
    IndentationFree xmlNodeGetContent nodes ↔
      ReportNoLoneElement nodes ∧ ReportContentsSet nodes ∧ Fit 0 (reportPieces false nodes) := by
  constructor
  · intro h
    obtain ⟨sb, -, hparse, -⟩ := h nodes rfl
    have hset := contentsSet_of_parseXml hget hparse
    exact ⟨noLone_of_indentationFree hget h, hset, fit_of_parseXml hget hset hparse⟩
  · rintro ⟨hlone, hset, hfit⟩
    exact indentationFree_of_noLone hget hlone hset hfit

end

theorem indentationFree_iff_plain : IndentationFree documentedContent plainReport :=
  (indentationFree_iff getsContent_documented plainReport).2
    ⟨by decide +kernel, by decide +kernel, by decide +kernel⟩

/-- A record whose identifiers are one `header_from`: a string in one line, an
object when it is indented. -/
def headerFromReport : XmlNode :=
  .element recordName
    (.element identifiersName
      (.element ⟨bytes "header_from", by decide +kernel⟩
        (.other .text (some domainText) .null) .null) .null) .null

theorem headerFrom_not_indentationFree : ¬IndentationFree documentedContent headerFromReport := by
  intro h
  have hlone : ¬ReportNoLoneElement headerFromReport := by decide +kernel
  exact hlone (noLone_of_indentationFree getsContent_documented h)

end ComfirmDmarc.MailHandler
