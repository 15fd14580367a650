import ComfirmDmarc.Server.HeaderText

/-!
# Server -- the header section of a content

How `request_parse_data` cuts a stored content into header lines, as a grammar
of its bytes. A line ends at a CR, whatever the byte behind it is; but a CR that
starts a fold ends no line, and neither does one that follows a line end or the
first colon of its line, where the parser skips a byte without looking at it.
-/

namespace ComfirmDmarc.Server

open CMemory

/-! ## Lines -/

/-- A text in which CR only starts folds. The last one may go on in the memory
`behind` the text. -/
inductive Folded (behind : Bytes) : Bytes → Prop
  | nil : Folded behind []
  | char {c : UInt8} {s : Bytes} : c ≠ 13 → Folded behind s → Folded behind (c :: s)
  | fold {s : Bytes} :
      StartsFold (13 :: s ++ behind) → Folded behind (s.drop 2) → Folded behind (13 :: s)

/-- The text of a header line: a name; or a name, the first colon, one byte of
any kind, and a value. -/
inductive HeaderLine (behind : Bytes) : Bytes → Prop
  | name {s : Bytes} : 58 ∉ s → Folded behind s → HeaderLine behind s
  | field {name value : Bytes} {c : UInt8} :
      58 ∉ name → Folded [] name → Folded behind value → HeaderLine behind (name ++ 58 :: c :: value)

/-- What the header section of a content consists of. -/
structure HeaderSection where
  /-- the texts of the lines that are ended -/
  lines : List Bytes
  /-- the text behind them that no line end follows -/
  last : Bytes
  /-- the section ends with a blank line -/
  blank : Bool
  /-- what follows the blank line -/
  body : Bytes

/-- **The header section of a content**, with `tail` behind it in memory. -/
inductive CutsInto (tail : Bytes) : Bytes → HeaderSection → Prop
  /-- the content ends within a line -/
  | last {t : Bytes} : HeaderLine tail t → CutsInto tail t ⟨[], t, false, []⟩
  /-- the content ends with the colon of a line -/
  | colon {name : Bytes} : 58 ∉ name → Folded [] name →
      CutsInto tail (name ++ [58]) ⟨[], name ++ [58], false, []⟩
  /-- a line is ended by a CR and the byte behind it -/
  | line {t rest : Bytes} {s : HeaderSection} :
      HeaderLine [] t → ¬StartsFold (13 :: rest ++ tail) → ¬StartsBlankLine (13 :: rest) tail →
      CutsInto tail (rest.drop 1) s →
      CutsInto tail (t ++ 13 :: rest) { s with lines := t :: s.lines }
  /-- the last line is ended by the blank line -/
  | blank {t rest : Bytes} :
      HeaderLine [] t → StartsBlankLine (13 :: rest) tail → ¬StartsFold ((rest ++ tail).drop 1) →
      CutsInto tail (t ++ 13 :: rest) ⟨[t], [], true, rest.drop 3⟩
  /-- a blank behind the blank line makes a fold of it, which ends no line -/
  | blankFold {t rest : Bytes} :
      HeaderLine [] t → StartsBlankLine (13 :: rest) tail → StartsFold ((rest ++ tail).drop 1) →
      CutsInto tail (t ++ 13 :: rest) ⟨[], t, true, rest.drop 4⟩

/-- A text that stores nothing in front of a colon: NUL, SP and folds. -/
inductive Idle : Bytes → Prop
  | nil : Idle []
  | skip {c : UInt8} {s : Bytes} : c = 0 ∨ c = 32 → Idle s → Idle (c :: s)
  | fold {s : Bytes} : Idle (s.drop 2) → Idle (13 :: s)

/-- **Few lines**: at most `HEADER_MAX_LEN` lines are ended, and behind as many
there is nothing to store. -/
def FewLines (content tail : Bytes) : Prop :=
  ∃ s, CutsInto tail content s ∧ s.lines.length ≤ headerMaxLen ∧
    (s.lines.length = headerMaxLen → Idle s.last)

/-- **Every line that is ended has a colon.** -/
def LinesHaveColons (content tail : Bytes) : Prop :=
  ∃ s, CutsInto tail content s ∧ ∀ l ∈ s.lines, 58 ∈ l

/-- **A body follows** behind a blank line, or no line is ended at all. -/
def BodyFollows (content tail : Bytes) : Prop :=
  ∃ s, CutsInto tail content s ∧ (s.lines = [] ∨ s.blank = true ∧ s.body ≠ [])

/-! ## Every content has a header section -/

/-- A text up to its first line end, or, for a name, up to its first colon. -/
theorem folded_cut (tail : Bytes) (isKey : Bool) (s : Bytes) :
    ∃ t more, s = t ++ more ∧ (isKey = true → 58 ∉ t) ∧
      ((more = [] ∧ Folded tail t) ∨ Folded [] t ∧ ((isKey = true ∧ ∃ rest, more = 58 :: rest) ∨
        ∃ rest, more = 13 :: rest ∧ ¬StartsFold (13 :: rest ++ tail))) := by
  induction hlen : s.length using Nat.strong_induction_on generalizing s with
  | _ n ih =>
  cases s with
  | nil => exact ⟨[], [], rfl, by simp, .inl ⟨rfl, .nil⟩⟩
  | cons c s =>
    by_cases hcr : c = 13
    · subst hcr
      by_cases hfold : StartsFold (13 :: s ++ tail)
      · -- the fold may reach behind the content
        match s, hfold with
        | [], hfold => exact ⟨[13], [], rfl, by simp, .inl ⟨rfl, .fold hfold .nil⟩⟩
        | [a], hfold =>
          have ha : a = 10 := by
            obtain ⟨blank, more, -, heq⟩ := hfold
            exact (List.cons.inj (List.cons.inj heq).2).1
          exact ⟨[13, a], [], rfl, by simp [ha], .inl ⟨rfl, .fold hfold .nil⟩⟩
        | a :: b :: s, hfold =>
          obtain ⟨blank, more, hblank, heq⟩ := id hfold
          simp only [List.cons_append, List.cons.injEq, true_and] at heq
          obtain ⟨rfl, rfl, -⟩ := heq
          obtain ⟨t, more, rfl, hcolon, hcut⟩ := ih s.length (by simp [← hlen]; omega) s rfl
          have hb : b ≠ 58 := by rcases hblank with rfl | rfl <;> decide
          refine ⟨13 :: 10 :: b :: t, more, rfl, ?_, ?_⟩
          · simpa [Ne.symm hb] using hcolon
          · rcases hcut with ⟨hmore, ht⟩ | ⟨ht, hmore⟩
            · exact .inl ⟨hmore, .fold ⟨b, t ++ tail, hblank, rfl⟩ ht⟩
            · exact .inr ⟨.fold ⟨b, t ++ [], hblank, rfl⟩ ht, hmore⟩
      · exact ⟨[], 13 :: s, rfl, by simp, .inr ⟨.nil, .inr ⟨s, rfl, hfold⟩⟩⟩
    · by_cases hcolon : c = 58 ∧ isKey = true
      · exact ⟨[], c :: s, rfl, by simp, .inr ⟨.nil, .inl ⟨hcolon.2, s, by rw [hcolon.1]⟩⟩⟩
      · obtain ⟨t, more, rfl, hname, hcut⟩ := ih s.length (by simp [← hlen]) s rfl
        refine ⟨c :: t, more, rfl, ?_, ?_⟩
        · intro hkey hmem
          rcases List.mem_cons.mp hmem with heq | hmem
          · exact hcolon ⟨heq.symm, hkey⟩
          · exact hname hkey hmem
        · rcases hcut with ⟨hmore, ht⟩ | ⟨ht, hmore⟩
          · exact .inl ⟨hmore, .char hcr ht⟩
          · exact .inr ⟨.char hcr ht, hmore⟩

/-- **Every content has a header section.** -/
theorem exists_cutsInto (tail content : Bytes) : ∃ s, CutsInto tail content s := by
  induction hlen : content.length using Nat.strong_induction_on generalizing content with
  | _ n ih =>
  have hend : ∀ t rest, content = t ++ 13 :: rest → HeaderLine [] t →
      ¬StartsFold (13 :: rest ++ tail) → ∃ s, CutsInto tail content s := by
    rintro t rest rfl ht hfold
    by_cases hblank : StartsBlankLine (13 :: rest) tail
    · by_cases hbody : StartsFold ((rest ++ tail).drop 1)
      · exact ⟨_, .blankFold ht hblank hbody⟩
      · exact ⟨_, .blank ht hblank hbody⟩
    · obtain ⟨s, hs⟩ := ih (rest.drop 1).length (by simp [← hlen]; omega) (rest.drop 1) rfl
      exact ⟨_, .line ht hfold hblank hs⟩
  obtain ⟨name, more, hcontent, hname, hcut⟩ := folded_cut tail true content
  rcases hcut with ⟨hmore, ht⟩ | ⟨ht, ⟨-, rest, hmore⟩ | ⟨rest, hmore, hfold⟩⟩
  · rw [hcontent, hmore, List.append_nil]
    exact ⟨_, .last (.name (hname rfl) ht)⟩
  · -- a colon: the byte behind it belongs to no value
    cases rest with
    | nil =>
      rw [hcontent, hmore]
      exact ⟨_, .colon (hname rfl) ht⟩
    | cons c rest =>
      obtain ⟨value, more', rfl, -, hcut⟩ := folded_cut tail false rest
      rcases hcut with ⟨hmore', hvalue⟩ | ⟨hvalue, ⟨hno, -⟩ | ⟨rest, hmore', hfold⟩⟩
      · rw [hcontent, hmore, hmore', List.append_nil]
        exact ⟨_, .last (.field (hname rfl) ht hvalue)⟩
      · cases hno
      · exact hend (name ++ 58 :: c :: value) rest (by rw [hcontent, hmore, hmore']; simp)
          (.field (hname rfl) ht hvalue) hfold
  · exact hend name rest (by rw [hcontent, hmore]) (.name (hname rfl) ht) hfold

/-! ## The tokens of a text -/

/-- What is read of a text within a line. -/
structure TextTokens (isKey : Bool) (s : Bytes) (ts : List Token) : Prop where
  inside : ∀ t ∈ ts, t ≠ .lineEnd ∧ t ≠ .colon
  stores : isKey = true → ((∃ t ∈ ts, t.stores = true) ↔ ¬Idle s)

theorem idle_cons_iff {c : UInt8} (h : c ≠ 13) (s : Bytes) :
    Idle (c :: s) ↔ (c = 0 ∨ c = 32) ∧ Idle s := by
  constructor
  · intro hi
    cases hi with
    | skip hc hs => exact ⟨hc, hs⟩
    | fold _ => exact absurd rfl h
  · rintro ⟨hc, hs⟩
    exact .skip hc hs

theorem idle_cr_iff (s : Bytes) : Idle (13 :: s) ↔ Idle (s.drop 2) := by
  constructor
  · intro hi
    cases hi with
    | skip hc _ => simp at hc
    | fold hs => exact hs
  · exact .fold

/-- A byte of a text other than CR. -/
theorem TextTokens.char {isKey : Bool} {s : Bytes} {ts : List Token} (h : TextTokens isKey s ts)
    {c : UInt8} (hcr : c ≠ 13) (hcolon : ¬(c = 58 ∧ isKey = true)) (rest tail : Bytes) :
    (lexeme isKey c rest tail).2 = 0 ∧
      (lexeme isKey c rest tail).1.nextIsKey isKey = isKey ∧
      TextTokens isKey (c :: s) ((lexeme isKey c rest tail).1 :: ts) := by
  rw [lexeme_of_ne hcr, if_neg hcolon]
  have hstores := h.stores
  split
  · next hnul =>
    refine ⟨rfl, rfl, by simpa using h.inside, fun hkey => ?_⟩
    rw [List.exists_mem_cons_iff, hstores hkey, idle_cons_iff hcr]
    simp [hnul, Token.stores]
  · next hnul =>
    split
    · next hkey =>
      split
      · next hsp =>
        refine ⟨rfl, rfl, by simpa using h.inside, fun hkey => ?_⟩
        rw [List.exists_mem_cons_iff, hstores hkey, idle_cons_iff hcr]
        simp [hsp, Token.stores]
      · next hsp =>
        refine ⟨rfl, rfl, by simpa using h.inside, fun hkey => ?_⟩
        rw [List.exists_mem_cons_iff, idle_cons_iff hcr]
        simp [hnul, hsp, Token.stores]
    · next hkey => exact ⟨rfl, rfl, by simpa using h.inside, fun hkey' => absurd hkey' hkey⟩

/-- **A text is read without a line end**, up to what follows it in the content. -/
theorem scan_folded {behind more tail : Bytes} (hbehind : behind = [] ∨ more = [] ∧ behind = tail)
    {isKey : Bool} {s : Bytes} (h : Folded behind s) (hname : isKey = true → 58 ∉ s) :
    ∃ ts, scan tail isKey (s ++ more) = (scan tail isKey more).push ts ∧ TextTokens isKey s ts := by
  induction h with
  | nil => exact ⟨[], rfl, by simp, fun _ => by simpa using Idle.nil⟩
  | @char c s hcr _ ih =>
    obtain ⟨ts, hscan, hts⟩ := ih fun hkey hmem => hname hkey (List.mem_cons_of_mem _ hmem)
    have hcolon : ¬(c = 58 ∧ isKey = true) := fun hc => hname hc.2 (hc.1 ▸ List.mem_cons_self)
    obtain ⟨hskip, hmode, hall⟩ := hts.char hcr hcolon (s ++ more) tail
    refine ⟨_, ?_, hall⟩
    rw [List.cons_append, scan_of_ne hcr]
    simp only [hskip, hmode, List.drop_zero, hscan]
    rfl
  | @fold s hfold _ ih =>
    have hdrop : (s ++ more).drop 2 = s.drop 2 ++ more ∧
        StartsFold (13 :: (s ++ more) ++ tail) := by
      rcases hbehind with rfl | ⟨rfl, rfl⟩
      · obtain ⟨blank, rest, hblank, heq⟩ := hfold
        simp only [List.append_nil, List.cons.injEq, true_and] at heq
        rw [heq]
        exact ⟨rfl, blank, rest ++ more ++ tail, hblank, by simp⟩
      · exact ⟨by simp, by simpa using hfold⟩
    obtain ⟨ts, hscan, hts⟩ := ih fun hkey hmem =>
      hname hkey (List.mem_cons_of_mem _ (List.mem_of_mem_drop hmem))
    refine ⟨.fold :: ts, ?_, by simpa using hts.inside, fun hkey => ?_⟩
    · rw [List.cons_append, scan_startsFold isKey hdrop.2, hdrop.1, hscan]
      rfl
    · rw [List.exists_mem_cons_iff, hts.stores hkey, idle_cr_iff]
      simp [Token.stores]

/-- A colon is no idle byte. -/
theorem not_idle_colon {name : Bytes} (h : Folded [] name) (more : Bytes) :
    ¬Idle (name ++ 58 :: more) := by
  induction h with
  | nil =>
    rw [List.nil_append, idle_cons_iff (by decide)]
    rintro ⟨h0 | h32, -⟩
    · exact absurd h0 (by decide)
    · exact absurd h32 (by decide)
  | char hcr _ ih =>
    rw [List.cons_append, idle_cons_iff hcr]
    exact fun hi => ih hi.2
  | @fold s hfold _ ih =>
    obtain ⟨blank, rest, -, heq⟩ := hfold
    simp only [List.append_nil, List.cons.injEq, true_and] at heq
    rw [List.cons_append, idle_cr_iff]
    rw [heq] at ih ⊢
    exact ih

/-- What is read of a line, up to its end. -/
structure LineTokens (l : Bytes) (ts : List Token) : Prop where
  noEnd : Token.lineEnd ∉ ts
  colons : ∀ rest, Colons true (ts ++ rest) ↔ Colons (decide (58 ∉ l)) rest
  stores : (∃ t ∈ ts, t.stores = true) ↔ ¬Idle l

/-- Tokens without a line end and a colon leave the mode as it is. -/
theorem colons_append {isKey : Bool} {ts : List Token} (h : ∀ t ∈ ts, t ≠ .lineEnd ∧ t ≠ .colon)
    (rest : List Token) : Colons isKey (ts ++ rest) ↔ Colons isKey rest := by
  induction ts with
  | nil => rfl
  | cons t ts ih =>
    obtain ⟨⟨hend, hcolon⟩, hts⟩ := List.forall_mem_cons.mp h
    have hmode : t.nextIsKey isKey = isKey := by
      cases t with
      | lineEnd => exact absurd rfl hend
      | colon => exact absurd rfl hcolon
      | fold => rfl
      | keyChar c => rfl
      | valueChar c => rfl
      | skip => rfl
    rw [List.cons_append, Colons, hmode, ih hts]
    exact ⟨fun hc => hc.2, fun hc => ⟨fun heq => absurd heq hend, hc⟩⟩

theorem TextTokens.line {s : Bytes} {ts : List Token} (h : TextTokens true s ts) (hname : 58 ∉ s) :
    LineTokens s ts where
  noEnd hmem := (h.inside _ hmem).1 rfl
  colons rest := by
    rw [colons_append h.inside, decide_eq_true hname]
  stores := h.stores rfl

/-- A name, its colon, and what is read behind it. -/
theorem TextTokens.field {name more : Bytes} {ts vs : List Token} (h : TextTokens true name ts)
    (hname : Folded [] name) (hvs : ∀ t ∈ vs, t ≠ .lineEnd ∧ t ≠ .colon) :
    LineTokens (name ++ 58 :: more) (ts ++ .colon :: vs) where
  noEnd hmem := by
    rcases List.mem_append.mp hmem with hmem | hmem
    · exact (h.inside _ hmem).1 rfl
    · rcases List.mem_cons.mp hmem with heq | hmem
      · cases heq
      · exact (hvs _ hmem).1 rfl
  colons rest := by
    have hcolon : decide (58 ∉ name ++ 58 :: more) = false := by simp
    rw [List.append_assoc, colons_append h.inside, hcolon, List.cons_append, Colons, Token.nextIsKey,
      colons_append hvs]
    exact ⟨fun hc => hc.2, fun hc => ⟨(fun heq => by cases heq), hc⟩⟩
  stores := by
    refine ⟨fun _ => not_idle_colon hname more, fun _ => ⟨.colon, by simp, rfl⟩⟩

/-- **A line is read up to its end.** -/
theorem scan_lineText {behind more tail : Bytes} (hbehind : behind = [] ∨ more = [] ∧ behind = tail)
    {l : Bytes} (h : HeaderLine behind l) :
    ∃ ts, scan tail true (l ++ more) = (scan tail (decide (58 ∉ l)) more).push ts ∧
      LineTokens l ts := by
  cases h with
  | name hname hs =>
    obtain ⟨ts, hscan, hts⟩ := scan_folded hbehind hs fun _ => hname
    exact ⟨ts, by rw [hscan, decide_eq_true hname], hts.line hname⟩
  | @field name value c hname hfolded hvalue =>
    have hinside : ([] : Bytes) = [] ∨ 58 :: c :: (value ++ more) = [] ∧ [] = tail := .inl rfl
    have hkey : false = true → 58 ∉ value := nofun
    obtain ⟨ts, hscan, hts⟩ := scan_folded hinside hfolded fun _ => hname
    obtain ⟨vs, hscan', hvs⟩ := scan_folded hbehind hvalue hkey
    refine ⟨ts ++ .colon :: vs, ?_, hts.field hfolded hvs.inside⟩
    have hcolon : decide (58 ∉ name ++ 58 :: c :: value) = false := by simp
    rw [List.append_assoc, List.cons_append, List.cons_append, hscan, scan_colon, hscan', hcolon]
    simp [Scan.push]

/-! ## The tokens of a header section -/

theorem headersFit_append_iff {ts : List Token} (h : Token.lineEnd ∉ ts) (n : Nat)
    (rest : List Token) :
    HeadersFit n (ts ++ rest) ↔
      ((∃ t ∈ ts, t.stores = true) → n < headerMaxLen) ∧ HeadersFit n rest := by
  induction ts with
  | nil => simp
  | cons t ts ih =>
    rw [List.mem_cons, not_or] at h
    rw [List.cons_append, HeadersFit, Token.countLine, if_neg (Ne.symm h.1), ih h.2,
      List.exists_mem_cons_iff, or_imp, and_assoc]

/-- The text behind the last line end. -/
theorem LineTokens.fit_last {l : Bytes} {ts more : List Token} (h : LineTokens l ts)
    (hmore : more = [] ∨ more = [.fold]) (n : Nat) :
    HeadersFit n (ts ++ more) ↔ n ≤ headerMaxLen ∧ (n = headerMaxLen → Idle l) := by
  have hrest : HeadersFit n more ↔ n ≤ headerMaxLen := by
    rcases hmore with rfl | rfl
    · rfl
    · simp [HeadersFit, Token.stores, Token.countLine]
  rw [headersFit_append_iff h.noEnd, h.stores, hrest]
  constructor
  · rintro ⟨hstores, hle⟩
    refine ⟨hle, fun heq => ?_⟩
    by_contra hidle
    exact absurd (hstores hidle) (by omega)
  · rintro ⟨hle, hidle⟩
    exact ⟨fun hno => lt_of_le_of_ne hle fun heq => hno (hidle heq), hle⟩

/-- A line that is ended. -/
theorem LineTokens.fit_line {l : Bytes} {ts : List Token} (h : LineTokens l ts) (n : Nat)
    (rest : List Token) : HeadersFit n (ts ++ .lineEnd :: rest) ↔ HeadersFit (n + 1) rest := by
  rw [headersFit_append_iff h.noEnd, HeadersFit, Token.countLine, if_pos rfl]
  exact ⟨fun hfit => hfit.2.2, fun hfit => ⟨fun _ => hfit.le, (fun heq => by cases heq), hfit⟩⟩

/-- What the parser reads of a header section. -/
structure SectionTokens (s : HeaderSection) (sc : Scan) : Prop where
  blank : sc.blank = s.blank
  rest : sc.rest = s.body
  lineEnd : Token.lineEnd ∈ sc.tokens ↔ s.lines ≠ []
  fit : ∀ n, HeadersFit n sc.tokens ↔
    n + s.lines.length ≤ headerMaxLen ∧ (n + s.lines.length = headerMaxLen → Idle s.last)
  colons : Colons true sc.tokens ↔ ∀ l ∈ s.lines, 58 ∈ l

/-- A section that no line is ended in. -/
theorem LineTokens.section_last {l : Bytes} {ts more : List Token} (h : LineTokens l ts)
    (hmore : more = [] ∨ more = [.fold]) (blank : Bool) (rest : Bytes) :
    SectionTokens ⟨[], l, blank, rest⟩ ⟨ts ++ more, blank, rest⟩ where
  blank := rfl
  rest := rfl
  lineEnd := by
    have hno : Token.lineEnd ∉ more := by
      rcases hmore with rfl | rfl <;> simp
    simp [h.noEnd, hno]
  fit n := h.fit_last hmore n
  colons := by
    rw [h.colons]
    rcases hmore with rfl | rfl <;> simp [Colons]

/-- A line in front of a section. -/
theorem SectionTokens.line {s : HeaderSection} {sc : Scan} (hs : SectionTokens s sc) {l : Bytes}
    {ts : List Token} (h : LineTokens l ts) :
    SectionTokens { s with lines := l :: s.lines } (sc.push (ts ++ [.lineEnd])) where
  blank := hs.blank
  rest := hs.rest
  lineEnd := by simp [Scan.push]
  fit n := by
    have hlen : n + (l :: s.lines).length = n + 1 + s.lines.length := by
      rw [List.length_cons]
      omega
    rw [Scan.push, List.append_assoc, List.singleton_append, h.fit_line, hs.fit, hlen]
  colons := by
    rw [Scan.push, List.append_assoc, h.colons, List.singleton_append, Colons, Token.nextIsKey,
      hs.colons, List.forall_mem_cons]
    simp

/-- **A header section is what the parser reads.** -/
theorem CutsInto.tokens {tail content : Bytes} {s : HeaderSection} (h : CutsInto tail content s) :
    SectionTokens s (scanData content tail) := by
  have hempty : ∀ isKey, scan tail isKey [] = ⟨[], false, []⟩ := fun isKey => by rw [scan]
  induction h with
  | last ht =>
    obtain ⟨ts, hscan, hts⟩ := scan_lineText (.inr ⟨rfl, rfl⟩) ht
    rw [List.append_nil, hempty] at hscan
    rw [scanData, hscan]
    exact hts.section_last (.inl rfl) false []
  | @colon name hname hfolded =>
    have hinside : ([] : Bytes) = [] ∨ ([58] : Bytes) = [] ∧ [] = tail := .inl rfl
    obtain ⟨ts, hscan, hts⟩ := scan_folded hinside hfolded fun _ => hname
    have hcolon : scan tail true [58] = ⟨[.colon], false, []⟩ := by
      rw [scan_of_ne (by decide), lexeme_of_ne (by decide)]
      simp [hempty]
    have hline : LineTokens (name ++ [58]) (ts ++ [.colon]) := hts.field hfolded (by simp)
    rw [scanData, hscan, hcolon]
    simpa [Scan.push] using hline.section_last (.inl rfl) false []
  | line ht hfold hblank _ ih =>
    obtain ⟨ts, hscan, hts⟩ := scan_lineText (.inl rfl) ht
    rw [scanData, hscan, scan_endsLine _ hfold hblank]
    simpa [Scan.push] using ih.line hts
  | @blank t rest ht hblank hfold =>
    obtain ⟨ts, hscan, hts⟩ := scan_lineText (.inl rfl) ht
    rw [scanData, hscan, (scan_startsBlankLine _ hblank).2 hfold]
    have hnone : SectionTokens ⟨[], [], true, rest.drop 3⟩ ⟨[], true, rest.drop 3⟩ :=
      ⟨rfl, rfl, by simp, fun n => by simp [HeadersFit, Idle.nil], by simp [Colons]⟩
    simpa [Scan.push] using hnone.line hts
  | blankFold ht hblank hfold =>
    obtain ⟨ts, hscan, hts⟩ := scan_lineText (.inl rfl) ht
    rw [scanData, hscan, (scan_startsBlankLine _ hblank).1 hfold]
    exact hts.section_last (.inr rfl) true _

/-! ## The conditions on a content -/

theorem fewLines_iff (content tail : Bytes) :
    FewLines content tail ↔ HeadersFit 0 (scanData content tail).tokens := by
  constructor
  · rintro ⟨s, hs, hfit⟩
    rw [hs.tokens.fit, Nat.zero_add]
    exact hfit
  · intro hfit
    obtain ⟨s, hs⟩ := exists_cutsInto tail content
    rw [hs.tokens.fit, Nat.zero_add] at hfit
    exact ⟨s, hs, hfit⟩

instance (content tail : Bytes) : Decidable (FewLines content tail) :=
  decidable_of_iff _ (fewLines_iff content tail).symm

theorem linesHaveColons_iff (content tail : Bytes) :
    LinesHaveColons content tail ↔ Colons true (scanData content tail).tokens := by
  constructor
  · rintro ⟨s, hs, hcolons⟩
    exact hs.tokens.colons.mpr hcolons
  · intro hcolons
    obtain ⟨s, hs⟩ := exists_cutsInto tail content
    exact ⟨s, hs, hs.tokens.colons.mp hcolons⟩

theorem bodyFollows_iff (content tail : Bytes) :
    BodyFollows content tail ↔
      Token.lineEnd ∉ (scanData content tail).tokens ∨ HasBody content tail := by
  have hiff : ∀ {s}, CutsInto tail content s →
      ((s.lines = [] ∨ s.blank = true ∧ s.body ≠ []) ↔
        Token.lineEnd ∉ (scanData content tail).tokens ∨ HasBody content tail) := by
    intro s hs
    rw [HasBody, hs.tokens.lineEnd, hs.tokens.blank, hs.tokens.rest, ne_eq, not_not]
  constructor
  · rintro ⟨s, hs, hbody⟩
    exact (hiff hs).mp hbody
  · intro hbody
    obtain ⟨s, hs⟩ := exists_cutsInto tail content
    exact ⟨s, hs, (hiff hs).mpr hbody⟩

instance (content tail : Bytes) : Decidable (BodyFollows content tail) :=
  decidable_of_iff _ (bodyFollows_iff content tail).symm

/-! ## The bounds of the parser -/

/-- **The header parser is in bounds exactly on contents with few lines.** -/
theorem headerIndexBounds_iff (req : Request) (tail : Bytes) :
    HeaderIndexBounds req tail ↔ FewLines req.data tail := by
  rw [fewLines_iff]
  exact headerIndexBounds_iff_fit req tail

/-- The CR behind a colon ends no line, and a bare CR ends one. -/
example : FewLines (List.replicate 21 (bytes "A:\r\n")).flatten [] ∧
    ¬FewLines (List.replicate 21 (bytes "\rx")).flatten [] := by
  decide +kernel

/-- A mail with one header line more than there is room for. -/
def longMail : Bytes :=
  bytes "DATA\r\n" ++ (List.replicate 21 (bytes "A: b\r\n")).flatten ++ bytes "\r\n.\r\n"

theorem longMail_out_of_range :
    ¬∀ (conf : Config) (req : Request) (tail : Bytes), Stored conf req → HeaderIndexBounds req tail := by
  intro h
  have hstored : Stored .default (receive .default (requestInit .zero) [(longMail, [])]) :=
    ⟨by decide +kernel, _, _, rfl⟩
  exact absurd (h _ _ [0, 0] hstored).1 (by decide +kernel)

end ComfirmDmarc.Server
