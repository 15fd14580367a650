import ComfirmDmarc.Lib.JsonQuotes
import ComfirmDmarc.MailHandler.Indentation

/-!
# MailHandler -- the texts of a report in its JSON

`to_json` prints one member for each element, under the name of the element. A
decoder keeps the last member of a name, so the texts of the elements before it
are lost, as are those below an element that is printed as a string.
-/

namespace ComfirmDmarc.MailHandler

open CMemory JsonText

/-! ## The texts of a tree -/

/-- A tree of elements and texts. -/
def ElementsAndTexts : XmlNode → Prop
  | .null => True
  | .other kind _ next => kind.isContent = true ∧ ElementsAndTexts next
  | .element _ children next => ElementsAndTexts children ∧ ElementsAndTexts next

/-- The text of each element without elements below it, with the names on the
way to it. -/
def leaves : XmlNode → List (List Bytes × Bytes)
  | .null => []
  | .other _ _ next => leaves next
  | .element name children next =>
    (if children.hasElement then (leaves children).map fun p => (name.text :: p.1, p.2)
      else [([name.text], textOf children)]) ++ leaves next

/-- The leaf texts of an element, with the way from it. -/
def elementLeaves (children : XmlNode) : List (List Bytes × Bytes) :=
  if children.hasElement then leaves children else [([], textOf children)]

/-- The texts beside elements. -/
def mixedTexts (beside : Bool) : XmlNode → Bytes
  | .null => []
  | .other _ content next => (if beside then contentText content else []) ++ mixedTexts beside next
  | .element _ children next => mixedTexts children.hasElement children ++ mixedTexts beside next

/-! ## What is kept -/

/-- The members of a named object are those of a document in braces. -/
def documentText (name : Option XmlName) (text : Bytes) : Bytes :=
  match name with
  | none => text
  | some _ => bytes "\x7b" ++ text ++ bytes "\x7d"

/-- **A decoder finds each leaf text** in what `to_json` appends. -/
def LeafTextsKept (xmlNodeGetContent : XmlNode → Option Bytes) (name : Option XmlName)
    (nodes : XmlNode) (sb : StringBuffer) : Prop :=
  ∃ sb' text v, toJson xmlNodeGetContent (name.map XmlName.text) nodes sb = .ok sb' ∧
    sb'.content = sb.content ++ text ∧ IsJson (documentText name text) v ∧
    ∀ p ∈ leaves nodes, lookup ((name.map XmlName.text).toList ++ p.1) v = some (.string p.2)

/-- One of the siblings has the name. -/
def hasNamed (k : Bytes) : XmlNode → Bool
  | .null => false
  | .other _ _ next => hasNamed k next
  | .element name _ next => name.text = k || hasNamed k next

/-- **Nothing is lost.** An element with a later sibling of its name repeats texts
of the later ones. Any other one has at most one child and no element below it,
or several children, elements among them, and nothing is lost of these. -/
def NothingLost : XmlNode → Prop
  | .null => True
  | .other _ _ next => NothingLost next
  | .element name children next =>
    (if hasNamed name.text next then
      ∀ p ∈ elementLeaves children, (name.text :: p.1, p.2) ∈ leaves next
    else if children.next.isNull then children.hasElement = false
    else children.hasElement = true ∧ NothingLost children) ∧ NothingLost next

instance decElementsAndTexts : (nodes : XmlNode) → Decidable (ElementsAndTexts nodes)
  | .null => .isTrue trivial
  | .other kind _ next =>
    have := decElementsAndTexts next
    inferInstanceAs (Decidable (kind.isContent = true ∧ ElementsAndTexts next))
  | .element _ children next =>
    have := decElementsAndTexts children
    have := decElementsAndTexts next
    inferInstanceAs (Decidable (ElementsAndTexts children ∧ ElementsAndTexts next))

instance decNothingLost : (nodes : XmlNode) → Decidable (NothingLost nodes)
  | .null => .isTrue trivial
  | .other _ _ next => decNothingLost next
  | .element name children next =>
    have := decNothingLost children
    have := decNothingLost next
    inferInstanceAs (Decidable ((if hasNamed name.text next then
      ∀ p ∈ elementLeaves children, (name.text :: p.1, p.2) ∈ leaves next
      else if children.next.isNull then children.hasElement = false
      else children.hasElement = true ∧ NothingLost children) ∧ NothingLost next))

/-! ## Looking up -/

/-- The value of an element. -/
def elementValue (children : XmlNode) : Json :=
  if children.next.isNull then .string (nodeContent children) else .object (members children)

def Found (v : Json) (p : List Bytes × Bytes) : Prop := lookup p.1 v = some (.string p.2)

theorem members_element (name : XmlName) (children next : XmlNode) :
    members (.element name children next) = (name.text, elementValue children) :: members next := rfl

theorem leaves_element (name : XmlName) (children next : XmlNode) :
    leaves (.element name children next) =
      ((elementLeaves children).map fun p => (name.text :: p.1, p.2)) ++ leaves next := by
  rw [leaves, elementLeaves]
  split
  · rfl
  · rfl

theorem lastMember_isSome (k : Bytes) (nodes : XmlNode) :
    (lastMember k (members nodes)).isSome = hasNamed k nodes := by
  induction nodes with
  | null => rfl
  | other kind content next ih => exact ih
  | element name children next _ ih =>
    rw [members_element, lastMember, hasNamed, Option.isSome_or, ih]
    by_cases hname : name.text = k
    · simp [hname]
    · simp [hname]

/-- A way begins with the name of one of the siblings. -/
theorem leaves_path {nodes : XmlNode} {p : List Bytes × Bytes} (h : p ∈ leaves nodes) :
    ∃ k ks, p.1 = k :: ks ∧ hasNamed k nodes = true := by
  induction nodes with
  | null => cases h
  | other kind content next ih => exact ih h
  | element name children next _ ih =>
    rw [leaves_element, List.mem_append] at h
    rcases h with h | h
    · obtain ⟨q, -, rfl⟩ := List.mem_map.mp h
      exact ⟨name.text, q.1, rfl, by simp [hasNamed]⟩
    · obtain ⟨k, ks, hpath, hnamed⟩ := ih h
      exact ⟨k, ks, hpath, by simp [hasNamed, hnamed]⟩

theorem not_found_object_nil (ms : List (Bytes × Json)) (t : Bytes) :
    ¬Found (.object ms) ([], t) := by
  intro h
  cases h

theorem found_string {s : Bytes} {p : List Bytes × Bytes} : Found (.string s) p ↔ p = ([], s) := by
  obtain ⟨path, t⟩ := p
  cases path with
  | nil =>
    constructor
    · intro h
      cases h
      rfl
    · intro h
      cases h
      rfl
  | cons k ks =>
    constructor
    · intro h
      cases h
    · intro h
      cases h

/-- A name that occurs later is looked up there. -/
theorem found_later {name : XmlName} {children next : XmlNode} {k : Bytes} {ks : List Bytes}
    {t : Bytes} (h : hasNamed k next = true) :
    Found (.object (members (.element name children next))) (k :: ks, t) ↔
      Found (.object (members next)) (k :: ks, t) := by
  rw [← lastMember_isSome, Option.isSome_iff_exists] at h
  obtain ⟨x, hx⟩ := h
  rw [Found, Found, lookup, lookup, members_element, lastMember, hx, Option.some_or]

/-- A name that does not is looked up in the element. -/
theorem found_here {name : XmlName} {children next : XmlNode} {k : Bytes} {ks : List Bytes}
    {t : Bytes} (h : hasNamed k next = false) :
    Found (.object (members (.element name children next))) (k :: ks, t) ↔
      name.text = k ∧ Found (elementValue children) (ks, t) := by
  rw [← lastMember_isSome, Option.isSome_eq_false_iff, Option.isNone_iff_eq_none] at h
  rw [Found, Found, lookup, members_element, lastMember, h, Option.none_or]
  by_cases hname : name.text = k
  · simp [hname]
  · simp [hname]

/-! ## The texts that are found -/

theorem exists_leaf {nodes : XmlNode} (h : nodes.hasElement = true) : ∃ p, p ∈ leaves nodes := by
  induction nodes with
  | null => cases h
  | other kind content next ih => exact ih h
  | element name children next ihc _ =>
    rw [leaves_element, elementLeaves]
    split
    · next helement =>
      obtain ⟨p, hp⟩ := ihc helement
      exact ⟨_, List.mem_append_left _ (List.mem_map_of_mem hp)⟩
    · exact ⟨_, List.mem_append_left _ (List.mem_map_of_mem List.mem_cons_self)⟩

/-- A lone text is the content of its element. -/
theorem textOf_lone {nodes : XmlNode} (htexts : ElementsAndTexts nodes)
    (hlone : nodes.next.isNull = true) (helement : nodes.hasElement = false) :
    textOf nodes = nodeContent nodes := by
  cases nodes with
  | null => rfl
  | element name children next => cases helement
  | other kind content next =>
    cases next with
    | null => simp [textOf, nodeContent, htexts.1]
    | element name children next => cases hlone
    | other kind content next => cases hlone

/-- The condition on an element that has no later sibling of its name. -/
def ElementKept (children : XmlNode) : Prop :=
  if children.next.isNull then children.hasElement = false
  else children.hasElement = true ∧ NothingLost children

/-- An element that is kept yields its leaf texts and no others. -/
theorem found_element {children : XmlNode} (htexts : ElementsAndTexts children)
    (hkept : ElementKept children)
    (hobject : NothingLost children →
      ∀ p, Found (.object (members children)) p ↔ p ∈ leaves children)
    (p : List Bytes × Bytes) : Found (elementValue children) p ↔ p ∈ elementLeaves children := by
  rw [ElementKept] at hkept
  rw [elementValue, elementLeaves]
  cases hlone : children.next.isNull with
  | true =>
    rw [hlone, if_pos rfl] at hkept
    rw [if_pos rfl, hkept, if_neg (by decide), List.mem_singleton, found_string,
      textOf_lone htexts hlone hkept]
  | false =>
    rw [hlone, if_neg (by decide)] at hkept
    rw [if_neg (by decide), hkept.1, if_pos rfl]
    exact hobject hkept.2 p

/-- **Where nothing is lost, the strings of the object are the leaf texts.** -/
theorem found_iff {nodes : XmlNode} (htexts : ElementsAndTexts nodes) (h : NothingLost nodes)
    (p : List Bytes × Bytes) : Found (.object (members nodes)) p ↔ p ∈ leaves nodes := by
  induction nodes generalizing p with
  | null =>
    obtain ⟨path, t⟩ := p
    constructor
    · intro hfound
      cases path with
      | nil => cases hfound
      | cons k ks => cases hfound
    · intro hp
      cases hp
  | other kind content next ih => exact ih htexts.2 h p
  | element name children next ihc ih =>
    obtain ⟨hown, hnext⟩ := h
    obtain ⟨path, t⟩ := p
    rw [leaves_element, List.mem_append]
    cases path with
    | nil =>
      constructor
      · intro hfound
        exact (not_found_object_nil _ t hfound).elim
      · rintro (hp | hp)
        · obtain ⟨q, -, hq⟩ := List.mem_map.mp hp
          cases hq
        · obtain ⟨k, ks, hpath, -⟩ := leaves_path hp
          cases hpath
    | cons k ks =>
      cases hlater : hasNamed k next with
      | true =>
        rw [found_later hlater, ih htexts.2 hnext]
        constructor
        · exact fun hp => .inr hp
        · rintro (hp | hp)
          · -- the text is repeated by a later sibling
            obtain ⟨q, hq, heq⟩ := List.mem_map.mp hp
            cases heq
            rw [if_pos hlater] at hown
            exact hown q hq
          · exact hp
      | false =>
        -- the last element of its name; no later one has the path
        have hnotin : (k :: ks, t) ∉ leaves next := by
          intro hp
          obtain ⟨k', ks', hpath, hnamed⟩ := leaves_path hp
          cases hpath
          rw [hlater] at hnamed
          cases hnamed
        rw [found_here hlater]
        constructor
        · rintro ⟨rfl, hfound⟩
          rw [hlater, if_neg (by decide)] at hown
          exact .inl (List.mem_map.mpr
            ⟨(ks, t), (found_element htexts.1 hown (ihc htexts.1) _).1 hfound, rfl⟩)
        · rintro (hp | hp)
          · obtain ⟨q, hq, heq⟩ := List.mem_map.mp hp
            cases heq
            rw [hlater, if_neg (by decide)] at hown
            exact ⟨rfl, (found_element htexts.1 hown (ihc htexts.1) _).2 hq⟩
          · exact absurd hp hnotin

/-- An element that yields its leaf texts is kept. -/
theorem elementKept_of_found {children : XmlNode}
    (hobject : (∀ p ∈ leaves children, Found (.object (members children)) p) →
      NothingLost children)
    (h : ∀ p ∈ elementLeaves children, Found (elementValue children) p) :
    ElementKept children := by
  rw [ElementKept]
  rw [elementValue] at h
  split
  · next hlone =>
    -- a string has no texts below it
    rw [if_pos hlone] at h
    cases helement : children.hasElement with
    | false => rfl
    | true =>
      obtain ⟨p, hp⟩ := exists_leaf helement
      rw [elementLeaves, helement, if_pos rfl] at h
      obtain ⟨k, ks, hpath, -⟩ := leaves_path hp
      have hnil := found_string.mp (h p hp)
      rw [hnil] at hpath
      cases hpath
  · next hlone =>
    rw [if_neg hlone] at h
    cases helement : children.hasElement with
    | false =>
      -- an object is no text
      rw [elementLeaves, helement] at h
      exact (not_found_object_nil _ _ (h _ List.mem_cons_self)).elim
    | true =>
      rw [elementLeaves, helement, if_pos rfl] at h
      exact ⟨rfl, hobject h⟩

/-- **Where all leaf texts are found, nothing is lost.** -/
theorem nothingLost_of_found {nodes : XmlNode} (htexts : ElementsAndTexts nodes)
    (h : ∀ p ∈ leaves nodes, Found (.object (members nodes)) p) : NothingLost nodes := by
  induction nodes with
  | null => trivial
  | other kind content next ih => exact ih htexts.2 h
  | element name children next ihc ih =>
    rw [leaves_element, List.forall_mem_append, List.forall_mem_map] at h
    obtain ⟨hown, hrest⟩ := h
    have hnext : NothingLost next := by
      refine ih htexts.2 fun p hp => ?_
      obtain ⟨path, t⟩ := p
      obtain ⟨k, ks, hpath, hnamed⟩ := leaves_path hp
      cases hpath
      exact (found_later hnamed).1 (hrest _ hp)
    refine ⟨?_, hnext⟩
    cases hlater : hasNamed name.text next with
    | true =>
      rw [if_pos rfl]
      intro p hp
      exact (found_iff htexts.2 hnext _).1 ((found_later hlater).1 (hown p hp))
    | false =>
      rw [if_neg (by decide)]
      exact elementKept_of_found (ihc htexts.1) fun p hp => ((found_here hlater).1 (hown p hp)).2

/-! ## Quotes -/

theorem mem_textOf {nodes : XmlNode} {c : UInt8} (h : c ∈ textOf nodes)
    (hmixed : c ∉ mixedTexts true nodes) : ∃ p ∈ leaves nodes, c ∈ p.2 := by
  induction nodes with
  | null => cases h
  | other kind content next ih =>
    rw [mixedTexts, if_pos rfl, List.mem_append, not_or] at hmixed
    rcases List.mem_append.mp h with hc | hc
    · split at hc
      · exact absurd hc hmixed.1
      · cases hc
    · exact ih hc hmixed.2
  | element name children next ihc ih =>
    rw [mixedTexts, List.mem_append, not_or] at hmixed
    rw [leaves_element]
    rcases List.mem_append.mp h with hc | hc
    · rw [elementLeaves]
      cases helement : children.hasElement with
      | true =>
        rw [helement] at hmixed
        obtain ⟨p, hp, hcp⟩ := ihc hc hmixed.1
        exact ⟨_, List.mem_append_left _ (List.mem_map_of_mem hp), hcp⟩
      | false =>
        exact ⟨_, List.mem_append_left _ (List.mem_map_of_mem List.mem_cons_self), hc⟩
    · obtain ⟨p, hp, hcp⟩ := ih hc hmixed.2
      exact ⟨p, List.mem_append_right _ hp, hcp⟩

/-- The text below an element without quotes in its leaf texts and beside its elements. -/
theorem quote_not_mem_textOf {children : XmlNode} (hleaves : ∀ p ∈ elementLeaves children, 34 ∉ p.2)
    (hmixed : 34 ∉ mixedTexts children.hasElement children) : 34 ∉ textOf children := by
  intro hquote
  rw [elementLeaves] at hleaves
  cases helement : children.hasElement with
  | true =>
    rw [helement] at hleaves hmixed
    obtain ⟨p, hp, hcp⟩ := mem_textOf hquote hmixed
    exact hleaves p hp hcp
  | false =>
    rw [helement] at hleaves
    exact hleaves _ List.mem_cons_self hquote

theorem quoteFree_of_hasElement_false {nodes : XmlNode} (h : nodes.hasElement = false) :
    QuoteFree nodes := by
  induction nodes with
  | null => trivial
  | element name children next => cases h
  | other kind content next ih => exact ih h

/-- Quotes that are printed are in the leaf texts or beside elements. -/
theorem quoteFree_of_leaves {beside : Bool} {nodes : XmlNode} (htexts : ElementsAndTexts nodes)
    (hleaves : ∀ p ∈ leaves nodes, 34 ∉ p.2) (hmixed : 34 ∉ mixedTexts beside nodes) :
    QuoteFree nodes := by
  induction nodes generalizing beside with
  | null => trivial
  | other kind content next ih =>
    rw [mixedTexts, List.mem_append, not_or] at hmixed
    exact ih htexts.2 hleaves hmixed.2
  | element name children next ihc ih =>
    rw [mixedTexts, List.mem_append, not_or] at hmixed
    rw [leaves_element, List.forall_mem_append, List.forall_mem_map] at hleaves
    refine ⟨?_, ih htexts.2 hleaves.2 hmixed.2⟩
    split
    · next hlone =>
      cases children with
      | null => exact List.not_mem_nil
      | element name' children' next' =>
        -- a lone element is printed with all texts below it
        have helement : XmlNode.hasElement (.element name' children' next') = true := rfl
        have hbelow := hleaves.1
        rw [elementLeaves, if_pos helement, leaves_element, List.forall_mem_append,
          List.forall_mem_map] at hbelow
        have hbeside := hmixed.1
        rw [mixedTexts, List.mem_append, not_or] at hbeside
        exact quote_not_mem_textOf hbelow.1 hbeside.1
      | other kind content next' =>
        -- a lone text is a leaf text
        have helement : XmlNode.hasElement (.other kind content next') = false := by
          cases next' with
          | null => rfl
          | element name children next => cases hlone
          | other kind content next => cases hlone
        have htext := quote_not_mem_textOf hleaves.1 hmixed.1
        rw [textOf_lone htexts.1 hlone helement] at htext
        exact htext
    · cases helement : children.hasElement with
      | false => exact quoteFree_of_hasElement_false helement
      | true =>
        refine ihc htexts.1 ?_ hmixed.1
        have hbelow := hleaves.1
        rw [elementLeaves, helement, if_pos rfl] at hbelow
        exact hbelow

/-! ## The text that is read -/

theorem noEscapedQuote_escapeByte (c : UInt8) : NoEscapedQuote (escapeByte c) := by
  unfold escapeByte
  split
  · exact .escape (by decide) (by decide) .nil
  · split
    · exact .escape (by decide) (by decide) .nil
    · split
      · exact .escape (by decide) (by decide) .nil
      · next h92 =>
        split
        · exact .escape (by decide) (by decide) .nil
        · exact .byte h92 .nil

theorem noEscapedQuote_jsonEscape (s : Bytes) : NoEscapedQuote (jsonEscape s) := by
  induction s with
  | nil => exact .nil
  | cons c s ih =>
    rw [jsonEscape, List.flatMap_cons]
    exact (noEscapedQuote_escapeByte c).append ih

theorem noEscapedQuote_name (name : XmlName) : NoEscapedQuote name.text := by
  refine .of_no_slash fun h => ?_
  exact (isNameByte_plain (name.valid _ h)).2.1 rfl

theorem noEscapedQuote_intercalate {texts : List Bytes} (h : ∀ t ∈ texts, NoEscapedQuote t) :
    NoEscapedQuote ([44].intercalate texts) := by
  rw [← commaTexts_true]
  generalize true = first
  induction texts generalizing first with
  | nil => exact .nil
  | cons t texts ih =>
    rw [List.forall_mem_cons] at h
    have hcomma : NoEscapedQuote (if first then [] else [44]) := by
      split
      · exact .nil
      · exact .byte (by decide) .nil
    exact (hcomma.append h.1).append (ih h.2 false)

theorem noEscapedQuote_objectText {nodes : XmlNode} (h : ∀ t ∈ memberTexts nodes, NoEscapedQuote t) :
    NoEscapedQuote (objectText nodes) :=
  (NoEscapedQuote.byte (by decide) (noEscapedQuote_intercalate h)).append
    (.of_no_slash (by decide))

theorem noEscapedQuote_memberText {name : Bytes} {children : XmlNode} (hname : NoEscapedQuote name)
    (h : ∀ t ∈ memberTexts children, NoEscapedQuote t) :
    NoEscapedQuote (memberText name children) := by
  have hvalue : NoEscapedQuote (valueText children) := by
    rw [valueText]
    split
    · exact (NoEscapedQuote.byte (by decide) (noEscapedQuote_jsonEscape _)).append
        (.of_no_slash (by decide))
    · exact noEscapedQuote_objectText h
  exact ((NoEscapedQuote.byte (by decide) hname).append (.of_no_slash (by decide))).append hvalue

/-- **Every backslash that is printed starts one of the escapes of `json_escape`.** -/
theorem noEscapedQuote_memberTexts (nodes : XmlNode) :
    ∀ t ∈ memberTexts nodes, NoEscapedQuote t := by
  induction nodes with
  | null => exact fun t ht => absurd ht List.not_mem_nil
  | other kind content next ih => exact ih
  | element name children next ihc ih =>
    rw [memberTexts_element, List.forall_mem_cons]
    exact ⟨noEscapedQuote_memberText (noEscapedQuote_name name) ihc, ih⟩

/-! ## Reading a document -/

/-- What `to_json` appends. -/
def toJsonText (name : Option XmlName) (nodes : XmlNode) : Bytes :=
  match name with
  | none => objectText nodes
  | some name => 34 :: name.text ++ [34, 58, 32] ++ objectText nodes

def documentValue (name : Option XmlName) (nodes : XmlNode) : Json :=
  match name with
  | none => .object (members nodes)
  | some name => .object [(name.text, .object (members nodes))]

theorem flatten_toJsonPieces (name : Option XmlName) (nodes : XmlNode) :
    (toJsonPieces (name.map XmlName.text) nodes).flatten = toJsonText name nodes := by
  cases name with
  | none => exact flatten_toJsonPieces_none nodes
  | some name => exact flatten_toJsonPieces_some name.text nodes

theorem toJson_ok {xmlNodeGetContent : XmlNode → Option Bytes}
    (hget : GetsContent xmlNodeGetContent) {name : Option Bytes} {nodes : XmlNode}
    (hset : ContentsSet nodes) {sb : StringBuffer} (h : Fit sb.room (toJsonPieces name nodes)) :
    ∃ sb', toJson xmlNodeGetContent name nodes sb = .ok sb' ∧
      sb'.content = sb.content ++ (toJsonPieces name nodes).flatten := by
  obtain ⟨sb', happend, hcontent, -⟩ := appendAll_ok h
  rw [← toJson_eq hget name hset] at happend
  exact ⟨sb', happend, hcontent⟩

theorem fit_of_toJson {xmlNodeGetContent : XmlNode → Option Bytes}
    (hget : GetsContent xmlNodeGetContent) {name : Option Bytes} {nodes : XmlNode}
    (hset : ContentsSet nodes) {sb sb' : StringBuffer}
    (h : toJson xmlNodeGetContent name nodes sb = .ok sb') :
    Fit sb.room (toJsonPieces name nodes) := by
  by_contra hfit
  rw [toJson_eq hget name hset, appendAll_overflow hfit] at h
  cases h

theorem isJson_document {name : Option XmlName} {nodes : XmlNode} (h : QuoteFree nodes) :
    IsJson (documentText name (toJsonText name nodes)) (documentValue name nodes) := by
  cases name with
  | none => exact (objectText_isValue h).isJson
  | some name =>
    have hmember : IsMember (34 :: name.text ++ [34, 58, 32] ++ objectText nodes)
        (name.text, .object (members nodes)) :=
      (isStringText_name name.valid).isMember (objectText_isValue h)
    have hobject := (isValue_object (.cons hmember .nil)).isJson
    rw [List.intercalate_singleton] at hobject
    rw [documentText, bytes_open, bytes_close]
    exact hobject

theorem lookup_document (name : Option XmlName) (nodes : XmlNode) (path : List Bytes) :
    lookup ((name.map XmlName.text).toList ++ path) (documentValue name nodes) =
      lookup path (.object (members nodes)) := by
  cases name with
  | none => rfl
  | some name =>
    show lookup (name.text :: path) (.object [(name.text, .object (members nodes))]) = _
    rw [lookup, lastMember, lastMember, Option.none_or, if_pos rfl, Option.bind_some]

theorem noEscapedQuote_document (name : Option XmlName) (nodes : XmlNode) :
    NoEscapedQuote (documentText name (toJsonText name nodes)) := by
  have hobject := noEscapedQuote_objectText (noEscapedQuote_memberTexts nodes)
  cases name with
  | none => exact hobject
  | some name =>
    have hopen : NoEscapedQuote (bytes "\x7b") := .of_no_slash (by simp [bytes])
    have hclose : NoEscapedQuote (bytes "\x7d") := .of_no_slash (by simp [bytes])
    have hname : NoEscapedQuote (34 :: name.text ++ [34, 58, 32]) :=
      (NoEscapedQuote.byte (by decide) (noEscapedQuote_name name)).append (.of_no_slash (by decide))
    exact (hopen.append (hname.append hobject)).append hclose

section

variable {xmlNodeGetContent : XmlNode → Option Bytes}

theorem leafTextsKept_of_nothingLost (hget : GetsContent xmlNodeGetContent)
    {name : Option XmlName} {nodes : XmlNode} {sb : StringBuffer} (htexts : ElementsAndTexts nodes)
    (hlost : NothingLost nodes) (hquote : QuoteFree nodes) (hset : ContentsSet nodes)
    (hfit : Fit sb.room (toJsonPieces (name.map XmlName.text) nodes)) :
    LeafTextsKept xmlNodeGetContent name nodes sb := by
  obtain ⟨sb', happend, hcontent⟩ := toJson_ok hget hset hfit
  rw [flatten_toJsonPieces] at hcontent
  refine ⟨sb', _, _, happend, hcontent, isJson_document hquote, fun p hp => ?_⟩
  rw [lookup_document]
  exact (found_iff htexts hlost p).2 hp

/-- The text that is read is the one that the tree decides. -/
theorem leafTextsKept_document (hget : GetsContent xmlNodeGetContent) {name : Option XmlName}
    {nodes : XmlNode} {sb : StringBuffer} (h : LeafTextsKept xmlNodeGetContent name nodes sb) :
    ∃ v, IsJson (documentText name (toJsonText name nodes)) v ∧
      ∀ p ∈ leaves nodes, lookup ((name.map XmlName.text).toList ++ p.1) v = some (.string p.2) := by
  obtain ⟨sb', text, v, happend, hcontent, hjson, hfound⟩ := h
  have hset := contentsSet_of_toJson hget happend
  obtain ⟨sb1, happend1, hcontent1⟩ := toJson_ok hget hset (fit_of_toJson hget hset happend)
  rw [happend] at happend1
  cases happend1
  rw [flatten_toJsonPieces, hcontent] at hcontent1
  rw [List.append_cancel_left hcontent1] at hjson
  exact ⟨v, hjson, hfound⟩

theorem nothingLost_of_leafTextsKept (hget : GetsContent xmlNodeGetContent)
    {name : Option XmlName} {nodes : XmlNode} {sb : StringBuffer} (htexts : ElementsAndTexts nodes)
    (hmixed : 34 ∉ mixedTexts nodes.hasElement nodes)
    (h : LeafTextsKept xmlNodeGetContent name nodes sb) : NothingLost nodes ∧ QuoteFree nodes := by
  obtain ⟨v, hjson, hfound⟩ := leafTextsKept_document hget h
  have hquote : QuoteFree nodes := by
    obtain ⟨r, hparse, -⟩ := hjson
    refine quoteFree_of_leaves htexts (fun p hp => ?_) hmixed
    exact (hparse.quoteFree (noEscapedQuote_document name nodes)).1 _ _ (hfound p hp)
  have hv : v = documentValue name nodes := hjson.unique (isJson_document hquote)
  refine ⟨nothingLost_of_found htexts fun p hp => ?_, hquote⟩
  have hp' := hfound p hp
  rw [hv, lookup_document] at hp'
  exact hp'

/-- **The leaf texts are kept where nothing is lost, no quote is printed and no
content is `NULL`**, and in trees without quotes beside elements nowhere else. -/
theorem leafTextsKept_iff (hget : GetsContent xmlNodeGetContent) (name : Option XmlName)
    (nodes : XmlNode) (sb : StringBuffer) (htexts : ElementsAndTexts nodes) :
    (NothingLost nodes ∧ QuoteFree nodes ∧ ContentsSet nodes ∧
      Fit sb.room (toJsonPieces (name.map XmlName.text) nodes) →
        LeafTextsKept xmlNodeGetContent name nodes sb) ∧
    (34 ∉ mixedTexts nodes.hasElement nodes → LeafTextsKept xmlNodeGetContent name nodes sb →
      NothingLost nodes ∧ QuoteFree nodes ∧ ContentsSet nodes ∧
        Fit sb.room (toJsonPieces (name.map XmlName.text) nodes)) := by
  constructor
  · rintro ⟨hlost, hquote, hset, hfit⟩
    exact leafTextsKept_of_nothingLost hget htexts hlost hquote hset hfit
  · intro hmixed h
    obtain ⟨hlost, hquote⟩ := nothingLost_of_leafTextsKept hget htexts hmixed h
    obtain ⟨sb', text, v, happend, -⟩ := h
    have hset := contentsSet_of_toJson hget happend
    exact ⟨hlost, hquote, hset, fit_of_toJson hget hset happend⟩

end

/-- An element with one text. -/
def leafElement (name : XmlName) (text : XmlText) (next : XmlNode) : XmlNode :=
  .element name (.other .text (some text) .null) next

/-- A result of a check, with its domain. -/
def checkElement (name : XmlName) (domain result : XmlText) (next : XmlNode) : XmlNode :=
  .element name
    (leafElement ⟨bytes "domain", by decide +kernel⟩ domain <|
      leafElement ⟨bytes "result", by decide +kernel⟩ result .null) next

/-- One result of each check, one of them twice. -/
def authResults : XmlNode :=
  checkElement ⟨bytes "spf", by decide +kernel⟩ ⟨bytes "a", by decide +kernel⟩
    ⟨bytes "pass", by decide +kernel⟩ <|
  checkElement ⟨bytes "dkim", by decide +kernel⟩ ⟨bytes "b", by decide +kernel⟩
    ⟨bytes "fail", by decide +kernel⟩ <|
  checkElement ⟨bytes "dkim", by decide +kernel⟩ ⟨bytes "b", by decide +kernel⟩
    ⟨bytes "fail", by decide +kernel⟩ .null

theorem leafTextsKept_iff_authResults :
    LeafTextsKept documentedContent none authResults stringBufferInit :=
  (leafTextsKept_iff getsContent_documented none authResults stringBufferInit
    (by decide +kernel)).1
    ⟨by decide +kernel, by decide +kernel, by decide +kernel, by decide +kernel⟩

/-- Two results of one check. -/
def twoSignatures : XmlNode :=
  checkElement ⟨bytes "dkim", by decide +kernel⟩ ⟨bytes "a", by decide +kernel⟩
    ⟨bytes "pass", by decide +kernel⟩ <|
  checkElement ⟨bytes "dkim", by decide +kernel⟩ ⟨bytes "b", by decide +kernel⟩
    ⟨bytes "fail", by decide +kernel⟩ .null

theorem twoSignatures_not_kept :
    ElementsAndTexts twoSignatures ∧
      ¬LeafTextsKept documentedContent none twoSignatures stringBufferInit := by
  have htexts : ElementsAndTexts twoSignatures := by decide +kernel
  have hmixed : 34 ∉ mixedTexts twoSignatures.hasElement twoSignatures := by decide +kernel
  have hlost : ¬NothingLost twoSignatures := by decide +kernel
  exact ⟨htexts, fun h => hlost (nothingLost_of_leafTextsKept getsContent_documented htexts hmixed h).1⟩

end ComfirmDmarc.MailHandler
