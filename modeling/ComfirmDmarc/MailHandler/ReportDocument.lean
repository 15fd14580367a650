import ComfirmDmarc.MailHandler.ToJson

/-!
# MailHandler -- the report document

`parse_xml` puts no comma in front of the metadata. A report whose metadata come
once and in front of the policy becomes an object, one with other metadata
behind something that is printed does not. The contents that are printed must
not be `NULL`.
-/

namespace ComfirmDmarc.MailHandler

open CMemory JsonText

/-! ## The top elements -/

/-- No text of the report that is printed has a quote. -/
def ReportQuoteFree (nodes : XmlNode) : Prop :=
  (∀ t ∈ topElements nodes, QuoteFree t.2) ∧ ∀ r ∈ recordElements nodes, QuoteFree r

/-- **Metadata come first.** -/
def MetadataFirst (nodes : XmlNode) : Prop := ∀ t ∈ (topElements nodes).tail, t.1 ≠ .metadata

instance (nodes : XmlNode) : Decidable (ReportQuoteFree nodes) :=
  inferInstanceAs (Decidable ((∀ t ∈ topElements nodes, QuoteFree t.2) ∧
    ∀ r ∈ recordElements nodes, QuoteFree r))

instance (nodes : XmlNode) : Decidable (MetadataFirst nodes) :=
  inferInstanceAs (Decidable (∀ t ∈ (topElements nodes).tail, t.1 ≠ .metadata))

/-! ## The text -/

def topText (t : TopKind × XmlNode) : Bytes := 34 :: t.1.name ++ [34, 58, 32] ++ objectText t.2

/-- The texts of the top elements behind the first one. -/
def topRest : List (TopKind × XmlNode) → Bytes
  | [] => []
  | t :: ts => (if t.1 = .policy then 44 :: topText t else topText t) ++ topRest ts

/-- The texts of all of them. -/
def topsText : List (TopKind × XmlNode) → Bytes
  | [] => []
  | t :: ts => topText t ++ topRest ts

def recordsText (nodes : XmlNode) : Bytes :=
  34 :: bytes "records" ++ [34, 58, 32] ++
    (91 :: [44].intercalate ((recordElements nodes).map objectText) ++ [93])

/-- The strings of the top elements; behind one of them the first policy has its comma, too. -/
theorem flatten_topPieces (started : Bool) (nodes : XmlNode) :
    (topPieces started nodes).flatten =
      if started then topRest (topElements nodes) else topsText (topElements nodes) := by
  induction nodes generalizing started with
  | null => cases started <;> rfl
  | other kind content next ih => exact ih started
  | element name children next _ ih =>
    have hrest : (topPieces true next).flatten = topRest (topElements next) := ih true
    rw [topPieces, topElements]
    by_cases hmeta : name.text = bytes "report_metadata"
    · rw [if_pos hmeta, if_pos hmeta, List.flatten_append, flatten_toJsonPieces_some, hrest]
      cases started <;> rfl
    · by_cases hpolicy : name.text = bytes "policy_published"
      · rw [if_neg hmeta, if_neg hmeta, if_pos hpolicy, if_pos hpolicy, List.flatten_append,
          List.flatten_append, flatten_toJsonPieces_some, hrest]
        cases started with
        | false => rfl
        | true =>
          rw [commaPieces, if_pos rfl, List.flatten_singleton, bytes_comma]
          rfl
      · rw [if_neg hmeta, if_neg hmeta, if_neg hpolicy, if_neg hpolicy, ih]

theorem anyTop_eq (nodes : XmlNode) : anyTop nodes = !(topElements nodes).isEmpty := by
  induction nodes with
  | null => rfl
  | other kind content next ih => exact ih
  | element name children next _ ih =>
    rw [anyTop, topElements]
    by_cases hmeta : name.text = bytes "report_metadata"
    · simp [hmeta]
    · by_cases hpolicy : name.text = bytes "policy_published"
      · rw [if_neg hmeta, if_pos hpolicy]
        simp [hpolicy]
      · simp [hmeta, hpolicy, ih]

theorem map_flatten_recordPieces (nodes : XmlNode) :
    (recordPieces nodes).map List.flatten = (recordElements nodes).map objectText := by
  induction nodes with
  | null => rfl
  | other kind content next ih => exact ih
  | element name children next _ ih =>
    rw [recordPieces, recordElements]
    split
    · rw [List.map_append, ih, List.map_singleton, flatten_toJsonPieces_none]
      rfl
    · exact ih

/-- The text of the report. -/
theorem flatten_reportPieces (nodes : XmlNode) :
    (reportPieces false nodes).flatten = topsText (topElements nodes) ++
      (if topElements nodes = [] then [] else [44]) ++ recordsText nodes := by
  have hopen : bytes "\"records\": [" = 34 :: bytes "records" ++ [34, 58, 32] ++ [91] := by
    rw [bytes_ofList, bytes_ofList]
    rfl
  have hclose : bytes "]" = [93] := bytes_ofList _
  have hrecords : (recordsPieces nodes).flatten = recordsText nodes := by
    rw [recordsPieces, recordsText, List.flatten_append, List.flatten_cons, flatten_separated,
      map_flatten_recordPieces, List.flatten_singleton, hopen, hclose]
    simp
  have hstarted : (commaPieces (false || anyTop nodes)).flatten =
      if topElements nodes = [] then [] else [44] := by
    rw [anyTop_eq, Bool.false_or, commaPieces]
    cases topElements nodes with
    | nil => rfl
    | cons t ts => exact List.flatten_singleton.trans bytes_comma
  rw [reportPieces, List.flatten_append, List.flatten_append, flatten_topPieces, hstarted,
    hrecords]
  rfl

/-! ## The object -/

theorem topText_isMember {t : TopKind × XmlNode} (h : QuoteFree t.2) :
    IsMember (topText t) (t.1.name, .object (members t.2)) := by
  have hname : IsStringText t.1.name t.1.name := by
    cases t.1 with
    | metadata => exact isStringText_name (by simp [TopKind.name, bytes, isNameByte])
    | policy => exact isStringText_name (by simp [TopKind.name, bytes, isNameByte])
  exact hname.isMember (objectText_isValue h)

theorem topTexts_isMember {ts : List (TopKind × XmlNode)} (h : ∀ t ∈ ts, QuoteFree t.2) :
    List.Forall₂ IsMember (ts.map topText)
      (ts.map fun t => (t.1.name, .object (members t.2))) := by
  rw [List.forall₂_map_left_iff, List.forall₂_map_right_iff, List.forall₂_same]
  exact fun t ht => topText_isMember (h t ht)

theorem recordsText_isMember {nodes : XmlNode} (h : ∀ r ∈ recordElements nodes, QuoteFree r) :
    IsMember (recordsText nodes)
      (bytes "records", .array ((recordElements nodes).map fun r => .object (members r))) := by
  have hname : IsStringText (bytes "records") (bytes "records") :=
    isStringText_name (by simp [bytes, isNameByte])
  refine hname.isMember (isValue_array ?_)
  rw [List.forall₂_map_left_iff, List.forall₂_map_right_iff, List.forall₂_same]
  exact fun r hr => objectText_isValue (h r hr)

/-- The top elements have commas between them up to the first that follows without one. -/
theorem topRest_of_policies (t : TopKind × XmlNode) {ts : List (TopKind × XmlNode)}
    (h : ∀ u ∈ ts, u.1 ≠ .metadata) :
    topText t ++ topRest ts = [44].intercalate ((t :: ts).map topText) := by
  induction ts generalizing t with
  | nil => simp [topRest]
  | cons u ts ih =>
    have hu : u.1 = .policy := by
      cases hkind : u.1 with
      | metadata => exact absurd hkind (h u List.mem_cons_self)
      | policy => rfl
    have hts := ih u fun v hv => h v (List.mem_cons_of_mem _ hv)
    rw [topRest, if_pos hu, List.cons_append, hts, List.map_cons, List.map_cons, List.map_cons,
      List.intercalate_cons_cons]
    simp

theorem topRest_of_metadata (t : TopKind × XmlNode) {ts : List (TopKind × XmlNode)}
    (h : ∃ u ∈ ts, u.1 = .metadata) :
    ∃ before rest, before ⊆ ts ∧
      topText t ++ topRest ts = [44].intercalate ((t :: before).map topText) ++ 34 :: rest := by
  induction ts generalizing t with
  | nil =>
    obtain ⟨u, hu, -⟩ := h
    cases hu
  | cons u ts ih =>
    cases hkind : u.1 with
    | metadata =>
      -- metadata: no comma, the text goes on with the quote of their name
      have hu : u.1 ≠ .policy := by
        rw [hkind]
        decide
      refine ⟨[], u.1.name ++ [34, 58, 32] ++ objectText u.2 ++ topRest ts, List.nil_subset _, ?_⟩
      rw [topRest, if_neg hu, List.map_singleton, List.intercalate_singleton]
      rfl
    | policy =>
      -- a policy has its comma, the metadata are further behind
      have hts : ∃ v ∈ ts, v.1 = .metadata := by
        obtain ⟨v, hv, hmeta⟩ := h
        rcases List.mem_cons.mp hv with rfl | hv
        · rw [hkind] at hmeta
          cases hmeta
        · exact ⟨v, hv, hmeta⟩
      obtain ⟨before, rest, hsub, htext⟩ := ih u hts
      refine ⟨u :: before, rest, List.cons_subset_cons u hsub, ?_⟩
      rw [topRest, if_pos hkind, List.cons_append, htext, List.map_cons, List.map_cons,
        List.map_cons, List.intercalate_cons_cons]
      simp

theorem intercalate_concat (sep : Bytes) (ts : List Bytes) (t : Bytes) :
    sep.intercalate (ts ++ [t]) = sep.intercalate ts ++ (if ts = [] then [] else sep) ++ t := by
  cases ts with
  | nil => simp
  | cons first rest =>
    induction rest generalizing first with
    | nil => simp [List.intercalate_cons_cons]
    | cons second rest ih =>
      have hsecond := ih second
      rw [List.cons_append, List.cons_append, List.intercalate_cons_cons, ← List.cons_append,
        hsecond, List.intercalate_cons_cons]
      simp

section

variable {xmlNodeGetContent : XmlNode → Option Bytes}

variable (xmlNodeGetContent) in
/-- **The report is an object**: a member for each printed top element, then the
records with an object for each. -/
def WellFormedReport (nodes : XmlNode) : Prop :=
  ∃ sb ms rs, parseXml xmlNodeGetContent (some nodes) stringBufferInit = .ok (0, sb) ∧
    IsJson (bytes "\x7b" ++ sb.content ++ bytes "\x7d")
      (.object (ms ++ [(bytes "records", .array rs)])) ∧
    ms.map Prod.fst = (topElements nodes).map (fun t => t.1.name) ∧
    (∀ m ∈ ms, ∃ fields, m.2 = .object fields) ∧
    rs.length = (recordElements nodes).length ∧ ∀ r ∈ rs, ∃ fields, r = .object fields

theorem parseXml_init_ok (hget : GetsContent xmlNodeGetContent) {nodes : XmlNode}
    (hset : ReportContentsSet nodes) (h : Fit 0 (reportPieces false nodes)) :
    ∃ sb, parseXml xmlNodeGetContent (some nodes) stringBufferInit = .ok (0, sb) ∧
      sb.content = (reportPieces false nodes).flatten := by
  have hstarted : stringBufferInit.str.isSome = false := rfl
  have hfit : Fit stringBufferInit.room (reportPieces false nodes) := h
  obtain ⟨sb, happend, hcontent, -⟩ := appendAll_ok hfit
  refine ⟨sb, ?_, hcontent⟩
  rw [parseXml_eq hget hset, hstarted, happend]
  rfl

theorem fit_of_parseXml (hget : GetsContent xmlNodeGetContent) {nodes : XmlNode}
    (hset : ReportContentsSet nodes) {result : Int × StringBuffer}
    (h : parseXml xmlNodeGetContent (some nodes) stringBufferInit = .ok result) :
    Fit 0 (reportPieces false nodes) := by
  have hstarted : stringBufferInit.str.isSome = false := rfl
  by_contra hfit
  have hroom : ¬Fit stringBufferInit.room (reportPieces false nodes) := hfit
  rw [parseXml_eq hget hset, hstarted, appendAll_overflow hroom] at h
  cases h

theorem wellFormed_of_metadataFirst (hget : GetsContent xmlNodeGetContent) {nodes : XmlNode}
    (hquote : ReportQuoteFree nodes) (hfirst : MetadataFirst nodes)
    (hset : ReportContentsSet nodes) (hfit : Fit 0 (reportPieces false nodes)) :
    WellFormedReport xmlNodeGetContent nodes := by
  obtain ⟨sb, hparse, hcontent⟩ := parseXml_init_ok hget hset hfit
  have hmembers : List.Forall₂ IsMember ((topElements nodes).map topText ++ [recordsText nodes])
      (((topElements nodes).map fun t => (t.1.name, Json.object (members t.2))) ++
        [(bytes "records", .array ((recordElements nodes).map fun r => .object (members r)))]) :=
    List.rel_append (topTexts_isMember hquote.1)
      (.cons (recordsText_isMember hquote.2) .nil)
  have htops : topsText (topElements nodes) =
      [44].intercalate ((topElements nodes).map topText) := by
    rw [MetadataFirst] at hfirst
    cases htop : topElements nodes with
    | nil => rfl
    | cons t ts =>
      rw [htop] at hfirst
      exact topRest_of_policies t hfirst
  have htext : sb.content =
      [44].intercalate ((topElements nodes).map topText ++ [recordsText nodes]) := by
    rw [hcontent, flatten_reportPieces, htops, intercalate_concat]
    simp only [List.map_eq_nil_iff]
  refine ⟨sb, (topElements nodes).map fun t => (t.1.name, Json.object (members t.2)),
    (recordElements nodes).map fun r => .object (members r), hparse, ?_, ?_, ?_,
    List.length_map _, ?_⟩
  · rw [bytes_open, bytes_close, htext, List.singleton_append]
    exact (isValue_object hmembers).isJson
  · rw [List.map_map]
    rfl
  · intro m hm
    obtain ⟨t, -, rfl⟩ := List.mem_map.mp hm
    exact ⟨_, rfl⟩
  · intro r hr
    obtain ⟨n, -, rfl⟩ := List.mem_map.mp hr
    exact ⟨_, rfl⟩

theorem metadataFirst_of_wellFormed (hget : GetsContent xmlNodeGetContent) {nodes : XmlNode}
    (hquote : ReportQuoteFree nodes) (h : WellFormedReport xmlNodeGetContent nodes) :
    MetadataFirst nodes := by
  obtain ⟨sb, ms, rs, hparse, ⟨r, hjson, -⟩, -⟩ := h
  have hset := contentsSet_of_parseXml hget hparse
  obtain ⟨sb', hparse', hcontent⟩ := parseXml_init_ok hget hset (fit_of_parseXml hget hset hparse)
  rw [hparse] at hparse'
  cases hparse'
  rw [MetadataFirst]
  intro u hu hmeta
  cases htop : topElements nodes with
  | nil =>
    rw [htop] at hu
    cases hu
  | cons t ts =>
    rw [htop, List.tail_cons] at hu
    obtain ⟨before, rest, hsub, htext⟩ := topRest_of_metadata t ⟨u, hu, hmeta⟩
    have hmembers : List.Forall₂ IsMember ((t :: before).map topText)
        ((t :: before).map fun t => (t.1.name, Json.object (members t.2))) := by
      refine topTexts_isMember fun v hv => hquote.1 v ?_
      rw [htop]
      exact List.cons_subset_cons t hsub hv
    -- the text goes on with a quote where a comma belongs
    rw [bytes_open, List.singleton_append, hcontent, flatten_reportPieces, htop, topsText, htext] at hjson
    simp only [List.append_assoc, List.cons_append] at hjson
    exact not_parse_object hmembers (List.cons_ne_nil _ _) hjson

/-- **The report is an object exactly where metadata come first**, as long as no
content is `NULL` and the strings fit. -/
theorem wellFormedReport_iff (hget : GetsContent xmlNodeGetContent) (nodes : XmlNode)
    (hquote : ReportQuoteFree nodes) :
    WellFormedReport xmlNodeGetContent nodes ↔
      MetadataFirst nodes ∧ ReportContentsSet nodes ∧ Fit 0 (reportPieces false nodes) := by
  constructor
  · intro h
    refine ⟨metadataFirst_of_wellFormed hget hquote h, ?_⟩
    obtain ⟨sb, ms, rs, hparse, -⟩ := h
    have hset := contentsSet_of_parseXml hget hparse
    exact ⟨hset, fit_of_parseXml hget hset hparse⟩
  · rintro ⟨hfirst, hset, hfit⟩
    exact wellFormed_of_metadataFirst hget hquote hfirst hset hfit

end

def recordName : XmlName := ⟨bytes "record", by decide +kernel⟩

def identifiersName : XmlName := ⟨bytes "identifiers", by decide +kernel⟩

def domainText : XmlText := ⟨bytes "a.example", by decide +kernel⟩

/-- Metadata, a policy and two records, one of them with two elements. -/
def plainReport : XmlNode :=
  .element ⟨bytes "report_metadata", by decide +kernel⟩
    (.element ⟨bytes "org_name", by decide +kernel⟩
      (.other .text (some domainText) .null) .null) <|
  .element ⟨bytes "policy_published", by decide +kernel⟩ .null <|
  .other .text (some ⟨[10, 32], by decide +kernel⟩) <|
  .element recordName
    (.element ⟨bytes "row", by decide +kernel⟩ .null <|
      .element identifiersName
        (.other .text (some ⟨[92, 9], by decide +kernel⟩) .null) .null) <|
  .element recordName .null .null

theorem wellFormedReport_iff_plain : WellFormedReport documentedContent plainReport :=
  (wellFormedReport_iff getsContent_documented plainReport (by decide +kernel)).2
    ⟨by decide +kernel, by decide +kernel, by decide +kernel⟩

/-- The policy in front of the metadata, which becomes
`"policy": {}"metadata": {},"records": []`. -/
def policyFirstReport : XmlNode :=
  .element ⟨bytes "policy_published", by decide +kernel⟩ .null <|
  .element ⟨bytes "report_metadata", by decide +kernel⟩ .null .null

theorem policyFirst_not_object :
    ReportQuoteFree policyFirstReport ∧
      ¬WellFormedReport documentedContent policyFirstReport := by
  have hquote : ReportQuoteFree policyFirstReport := by decide +kernel
  refine ⟨hquote, fun h => ?_⟩
  have hfirst := metadataFirst_of_wellFormed getsContent_documented hquote h
  have hpolicy : ¬MetadataFirst policyFirstReport := by decide +kernel
  exact hpolicy hfirst

end ComfirmDmarc.MailHandler
