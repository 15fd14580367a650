import ComfirmDmarc.Server.ConfigFile

/-!
# Server -- reading a configuration file back

Files of blank lines, comments and `key = value` pairs, and the calls of
`config_save_value` that `config_load` makes for them. A value loses each `=`
that it has; everything else comes back as it was written.
-/

namespace ComfirmDmarc.Server

open CMemory

/-! ## Configuration files -/

/-- A key, as it can be written in a file. -/
structure ConfigKey where
  text : Bytes
  ne_nil : text ≠ []
  length_le : text.length ≤ 511
  plain : ∀ c ∈ text, c ≠ 32 ∧ c ≠ 9 ∧ c ≠ 13 ∧ c ≠ 10 ∧ c ≠ 61 ∧ c ≠ 35

/-- A value, as it can be written in a file. -/
structure ConfigValue where
  text : Bytes
  ne_nil : text ≠ []
  start : text.head? ≠ some 32
  plain : ∀ c ∈ text, c ≠ 35 ∧ c ≠ 9 ∧ c ≠ 13 ∧ c ≠ 10

/-- A line of a file: white space, a comment, or a pair with its spaces. -/
inductive ConfigLine
  | blank (text : Bytes) (space : ∀ c ∈ text, c = 32 ∨ c = 9 ∨ c = 13)
  | comment (text : Bytes) (line : (10 : UInt8) ∉ text)
  | pair (key : ConfigKey) (before after : Nat) (value : ConfigValue)

/-- The line without its end. -/
def ConfigLine.text : ConfigLine → Bytes
  | .blank text _ => text
  | .comment text _ => 35 :: text
  | .pair key before after value =>
    key.text ++ List.replicate before 32 ++ 61 :: (List.replicate after 32 ++ value.text)

/-- The pair that the line stands for. -/
def ConfigLine.call : ConfigLine → Option (Bytes × Bytes)
  | .blank _ _ => none
  | .comment _ _ => none
  | .pair key _ _ value => some (key.text, value.text)

/-- **The file of some lines**; its last line ends with the file, so that an
empty one stands for a line break there. -/
def fileText (lines : List ConfigLine) : Bytes := [10].intercalate (lines.map ConfigLine.text)

namespace LineText

/-- Bytes that change nothing. -/
theorem addAll_of_fixed {t : LineText} {line : Bytes} (h : ∀ c ∈ line, t.add c = t) :
    t.addAll line = t :=
  addAll_induction (P := (· = t)) line (fun t' c hc ht => by rw [ht, h c hc]) rfl

theorem addAll_append (t : LineText) {s : Bytes} (hs : (35 : UInt8) ∉ s) (line : Bytes) :
    t.addAll (s ++ line) = (t.addAll s).addAll line := by
  induction s generalizing t with
  | nil => rfl
  | cons c s ih =>
    rw [List.mem_cons, not_or] at hs
    rw [List.cons_append, addAll_cons t (Ne.symm hs.1), ih _ hs.2, addAll_cons t (Ne.symm hs.1)]

/-- The line break is no part of a pair. -/
theorem addAll_newline (t : LineText) (s : Bytes) : t.addAll (s ++ [10]) = t.addAll s := by
  induction s generalizing t with
  | nil => rfl
  | cons c s ih =>
    by_cases hc : c = 35
    · rw [List.cons_append, hc, addAll_comment, addAll_comment]
    · rw [List.cons_append, addAll_cons t hc, ih, addAll_cons t hc]

/-- A key is finished at its `=`. -/
theorem key_addAll {t : LineText} (h : t.isKey = false) (line : Bytes) : (t.addAll line).key = t.key := by
  have hall := addAll_induction (P := fun t' => t'.isKey = false ∧ t'.key = t.key) line
    (fun t' c _ ih => ?_) ⟨h, rfl⟩
  · exact hall.2
  · rcases t'.add_cases c with hadd | hadd | ⟨-, htrue, -⟩ | ⟨-, -, hadd⟩
    · rwa [hadd]
    · rw [hadd]
      exact ⟨rfl, ih.2⟩
    · cases htrue.symm.trans ih.1
    · rwa [hadd]

theorem addAll_key {s : Bytes} (hs : ∀ c ∈ s, c ≠ 32 ∧ c ≠ 9 ∧ c ≠ 13 ∧ c ≠ 10 ∧ c ≠ 61 ∧ c ≠ 35)
    (k : Bytes) : LineText.addAll ⟨true, k, []⟩ s = ⟨true, k ++ s, []⟩ := by
  induction s generalizing k with
  | nil => rw [List.append_nil]; rfl
  | cons c s ih =>
    rw [List.forall_mem_cons] at hs
    obtain ⟨⟨h32, h9, h13, h10, h61, h35⟩, hs⟩ := hs
    have hadd : LineText.add ⟨true, k, []⟩ c = ⟨true, k ++ [c], []⟩ := by
      simp [add, h32, h9, h13, h10, h61]
    rw [addAll_cons _ h35, hadd, ih hs, List.append_assoc, List.singleton_append]

theorem addAll_value {s : Bytes} (hs : ∀ c ∈ s, c ≠ 35 ∧ c ≠ 9 ∧ c ≠ 13 ∧ c ≠ 10) (h61 : (61 : UInt8) ∉ s)
    (k v : Bytes) (hstart : v = [] → s.head? ≠ some 32) :
    LineText.addAll ⟨false, k, v⟩ s = ⟨false, k, v ++ s⟩ := by
  induction s generalizing v with
  | nil => rw [List.append_nil]; rfl
  | cons c s ih =>
    rw [List.forall_mem_cons] at hs
    rw [List.mem_cons, not_or] at h61
    obtain ⟨⟨h35, h9, h13, h10⟩, hs⟩ := hs
    have hstore : c ≠ 32 ∨ v ≠ [] := by
      by_cases hv : v = []
      · exact .inl fun hc => hstart hv (congrArg some hc)
      · exact .inr hv
    have hadd : LineText.add ⟨false, k, v⟩ c = ⟨false, k, v ++ [c]⟩ := by
      rw [add, if_neg (Ne.symm h61.1), if_neg (by simp [h9, h13, h10]), if_neg Bool.false_ne_true,
        if_pos hstore]
    rw [addAll_cons _ h35, hadd, ih hs h61.2 (v ++ [c]) (by simp), List.append_assoc,
      List.singleton_append]

end LineText

/-- A line is read as without its line break. -/
theorem lineText_newline (text : Bytes) : lineText (text ++ [10]) = lineText text := by
  by_cases hnul : (0 : UInt8) ∈ text
  · rw [lineText, str_append_of_lt (str_length_lt hnul), lineText]
  · rw [lineText, str_append hnul, lineText, str_eq_self hnul]
    exact LineText.addAll_newline _ _

/-- Lines without a pair. -/
theorem lineText_of_fixed {text : Bytes} (h : ∀ c ∈ text, c = 32 ∨ c = 9 ∨ c = 13 ∨ c = 10) :
    lineText text = ⟨true, [], []⟩ := by
  refine LineText.addAll_of_fixed fun c hc => ?_
  rcases h c ((List.takeWhile_prefix _).subset hc) with rfl | rfl | rfl | rfl
  · rfl
  · rfl
  · rfl
  · rfl

theorem lineText_comment (text : Bytes) : lineText (35 :: text) = ⟨true, [], []⟩ :=
  LineText.addAll_comment _ _

/-- The scan up to the value. -/
theorem addAll_pair (key : ConfigKey) (before after : Nat) (rest : Bytes) :
    LineText.addAll ⟨true, [], []⟩
        (key.text ++ List.replicate before 32 ++ 61 :: (List.replicate after 32 ++ rest)) =
      LineText.addAll ⟨false, key.text, []⟩ rest := by
  have hkey : (35 : UInt8) ∉ key.text ++ List.replicate before 32 := by
    rw [List.mem_append, not_or]
    exact ⟨fun h => (key.plain 35 h).2.2.2.2.2 rfl, by simp [List.mem_replicate]⟩
  have hspaces : ∀ t : LineText, t.add 32 = t → ∀ n, t.addAll (List.replicate n 32) = t :=
    fun t ht n => LineText.addAll_of_fixed fun c hc => by rw [List.eq_of_mem_replicate hc, ht]
  have hfront : LineText.addAll ⟨true, [], []⟩ (key.text ++ List.replicate before 32) =
      ⟨true, key.text, []⟩ := by
    rw [LineText.addAll_append _ (fun h => (key.plain 35 h).2.2.2.2.2 rfl),
      LineText.addAll_key key.plain]
    exact hspaces _ rfl _
  rw [LineText.addAll_append _ hkey, hfront, LineText.addAll_cons _ (by decide),
    LineText.addAll_append _ (by simp [List.mem_replicate])]
  exact congrArg (LineText.addAll · rest) (hspaces _ rfl _)

/-- A line with its end, or the two apart when the buffer is full. -/
theorem fgetsLines_line {text : Bytes} (h10 : (10 : UInt8) ∉ text) (hlen : text.length < lineSize)
    (rest : Bytes) :
    fgetsLines (text ++ 10 :: rest) = (text ++ [10]) :: fgetsLines rest ∨
      fgetsLines (text ++ 10 :: rest) = text :: [10] :: fgetsLines rest := by
  have hplain : ∀ c ∈ text, (c == (10 : UInt8)) = false :=
    fun c hc => beq_eq_false_iff_ne.mpr fun h => h10 (h ▸ hc)
  by_cases hfull : text.length = lineSize - 1
  · right
    have hne : text ≠ [] := List.length_pos_iff.mp (hfull ▸ by decide)
    have hbreak : LineBreaks.lines (· == (10 : UInt8)) (lineSize - 1) 0 (10 :: rest) =
        [10] :: LineBreaks.lines (· == 10) (lineSize - 1) 0 rest := rfl
    rw [fgetsLines, LineBreaks.lines_append_full hne hplain (by omega), hbreak,
      List.filter_cons_of_pos (by simpa using hne), List.filter_cons_of_pos (by simp), fgetsLines]
  · left
    rw [fgetsLines, LineBreaks.lines_append_line hplain (.inl (by decide)) (by omega),
      List.filter_cons_of_pos (by simp), fgetsLines]

/-- The last line, without an end. -/
theorem fgetsLines_last {text : Bytes} (h10 : (10 : UInt8) ∉ text) (hlen : text.length < lineSize)
    (hne : text ≠ []) : fgetsLines text = [text] := by
  have hplain : ∀ c ∈ text, (c == (10 : UInt8)) = false :=
    fun c hc => beq_eq_false_iff_ne.mpr fun h => h10 (h ▸ hc)
  have hlines : LineBreaks.lines (· == (10 : UInt8)) (lineSize - 1) 0 text = [text] ∨
      LineBreaks.lines (· == (10 : UInt8)) (lineSize - 1) 0 text = [text, []] := by
    by_cases hfull : text.length = lineSize - 1
    · right
      have hline := LineBreaks.lines_append_full hne hplain (show 0 + text.length = lineSize - 1 by omega) []
      rwa [List.append_nil] at hline
    · left
      have hline := LineBreaks.lines_append hplain (show 0 + text.length < lineSize - 1 by omega) []
      rw [List.append_nil] at hline
      rw [hline, LineBreaks.lines, List.modifyHead_cons, List.append_nil]
  rcases hlines with hlines | hlines
  · rw [fgetsLines, hlines, List.filter_cons_of_pos (by simpa using hne), List.filter_nil]
  · rw [fgetsLines, hlines, List.filter_cons_of_pos (by simpa using hne),
      List.filter_cons_of_neg (by simp), List.filter_nil]

/-- **The calls for a file, line by line.** -/
theorem fgetsLines_texts {texts : List Bytes}
    (htexts : ∀ text ∈ texts, (10 : UInt8) ∉ text ∧ text.length < lineSize)
    (hkey : ∀ text ∈ texts, (lineText text).key.length < configKeySize) :
    lineCalls (fgetsLines ([10].intercalate texts)) = lineCalls texts ∧
      ∀ line ∈ fgetsLines ([10].intercalate texts), (lineText line).key.length < configKeySize := by
  have hbreak : lineText [10] = ⟨true, [], []⟩ := rfl
  induction texts with
  | nil => exact ⟨rfl, nofun⟩
  | cons text texts ih =>
    rw [List.forall_mem_cons] at htexts hkey
    cases texts with
    | nil =>
      rw [List.intercalate_singleton]
      by_cases hne : text = []
      · subst hne
        exact ⟨rfl, nofun⟩
      · rw [fgetsLines_last htexts.1.1 htexts.1.2 hne]
        exact ⟨rfl, List.forall_mem_singleton.mpr hkey.1⟩
    | cons next texts =>
      obtain ⟨hcalls, hfits⟩ := ih htexts.2 hkey.2
      rw [List.intercalate_cons_cons, List.append_assoc, List.singleton_append]
      rcases fgetsLines_line htexts.1.1 htexts.1.2 ([10].intercalate (next :: texts)) with
        hlines | hlines
      · rw [hlines, lineCalls_cons, lineText_newline, hcalls, lineCalls_cons text]
        refine ⟨rfl, List.forall_mem_cons.mpr ⟨?_, hfits⟩⟩
        rw [lineText_newline]
        exact hkey.1
      · have hnone : (lineText [10]).call.toList = [] := rfl
        rw [hlines, lineCalls_cons, lineCalls_cons [10], hnone, hcalls, lineCalls_cons text]
        refine ⟨rfl, List.forall_mem_cons.mpr ⟨hkey.1, List.forall_mem_cons.mpr ⟨?_, hfits⟩⟩⟩
        rw [hbreak]
        decide

/-! ## Reading back what a file says -/

/-- What is left of a pair in the line buffer, when its key is. -/
theorem lineText_pair (key : ConfigKey) (before after : Nat) (value : ConfigValue)
    (hkey : (0 : UInt8) ∉ key.text) :
    lineText (ConfigLine.pair key before after value).text =
      LineText.addAll ⟨false, key.text, []⟩ (str value.text) := by
  have hspaces : ∀ n, (0 : UInt8) ∉ List.replicate n 32 := fun n => by simp [List.mem_replicate]
  have hequals : ∀ s, str (61 :: s) = 61 :: str s := fun s => by simp [str]
  rw [lineText, ConfigLine.text, str_append (by rw [List.mem_append, not_or]; exact ⟨hkey, hspaces _⟩),
    hequals, str_append (hspaces _)]
  exact addAll_pair key before after _

theorem ConfigLine.newline_not_mem (line : ConfigLine) : (10 : UInt8) ∉ line.text := by
  cases line with
  | blank text space =>
    intro h
    rcases space 10 h with h | h | h <;> cases h
  | comment text hline =>
    rw [ConfigLine.text, List.mem_cons, not_or]
    exact ⟨by decide, hline⟩
  | pair key before after value =>
    rw [ConfigLine.text]
    simp only [List.mem_append, List.mem_cons, List.mem_replicate, not_or]
    exact ⟨⟨fun h => (key.plain 10 h).2.2.2.1 rfl, by simp⟩, by simp, by simp,
      fun h => (value.plain 10 h).2.2.2 rfl⟩

/-- A key that was cut by a NUL fits, too. -/
theorem ConfigLine.key_fits (line : ConfigLine) : (lineText line.text).key.length < configKeySize := by
  cases line with
  | blank text space =>
    rw [ConfigLine.text, lineText_of_fixed fun c hc => by
      rcases space c hc with h | h | h <;> simp [h]]
    decide
  | comment text hline =>
    rw [ConfigLine.text, lineText_comment]
    decide
  | pair key before after value =>
    have hkey : key.text.length < configKeySize := Nat.lt_succ_of_le key.length_le
    by_cases hnul : (0 : UInt8) ∈ key.text
    · have hlt := str_length_lt hnul
      have hsize := LineText.size_addAll_le ⟨true, [], []⟩ (str key.text)
      rw [lineText, ConfigLine.text, List.append_assoc, str_append_of_lt hlt]
      rw [LineText.size, LineText.size, List.length_nil] at hsize
      omega
    · rw [lineText_pair key before after value hnul, LineText.key_addAll rfl]
      exact hkey

/-- **The call for a line is its pair**, when no byte of that is lost. -/
theorem ConfigLine.call_lineText {line : ConfigLine}
    (h : ∀ call ∈ line.call, (61 : UInt8) ∉ call.2 ∧ (0 : UInt8) ∉ call.1 ∧ (0 : UInt8) ∉ call.2) :
    (lineText line.text).call = line.call := by
  cases line with
  | blank text space =>
    rw [ConfigLine.text, lineText_of_fixed fun c hc => by
      rcases space c hc with h | h | h <;> simp [h]]
    rfl
  | comment text hline =>
    rw [ConfigLine.text, lineText_comment]
    rfl
  | pair key before after value =>
    obtain ⟨heq, hkey, hvalue⟩ := h _ rfl
    rw [lineText_pair key before after value hkey, str_eq_self hvalue,
      LineText.addAll_value value.plain heq _ _ fun _ => value.start, List.nil_append,
      LineText.call, if_pos ⟨key.ne_nil, value.ne_nil⟩]
    rfl

/-- **The calls for a file of lines.** -/
theorem configLoad_fileText {lines : List ConfigLine}
    (hshort : ∀ line ∈ lines, line.text.length < lineSize) (run : ConfigRun) :
    ∃ key value, configLoad (some (fileText lines)) run = .ok (0, ⟨key, value,
      (lineCalls (lines.map ConfigLine.text)).foldl Saved.save run.saved⟩) := by
  have htexts : ∀ text ∈ lines.map ConfigLine.text, (10 : UInt8) ∉ text ∧ text.length < lineSize := by
    intro text htext
    obtain ⟨line, hline, rfl⟩ := List.mem_map.mp htext
    exact ⟨line.newline_not_mem, hshort line hline⟩
  have hkeys : ∀ text ∈ lines.map ConfigLine.text, (lineText text).key.length < configKeySize := by
    intro text htext
    obtain ⟨line, -, rfl⟩ := List.mem_map.mp htext
    exact line.key_fits
  obtain ⟨hcalls, hfits⟩ := fgetsLines_texts htexts hkeys
  obtain ⟨key, value, hload⟩ := configLoad_eq hfits run
  refine ⟨key, value, ?_⟩
  rw [fileText, hload, hcalls]

/-- **`config_load` reads back every pair of a file exactly when no value has a
`=` in it**, which the scan drops, and no key or value a NUL, which ends the
string in the line buffer. -/
theorem configLoad_inverts_iff (lines : List ConfigLine)
    (hshort : ∀ line ∈ lines, line.text.length < lineSize) (key : Vector UInt8 configKeySize)
    (value : Vector UInt8 configValueSize) (conf : Settings) :
    (∃ run, configLoad (some (fileText lines)) ⟨key, value, ⟨conf, [], []⟩⟩ = .ok (0, run) ∧
        run.saved.calls = lines.filterMap ConfigLine.call) ↔
      ∀ line ∈ lines, ∀ call ∈ line.call,
        (61 : UInt8) ∉ call.2 ∧ (0 : UInt8) ∉ call.1 ∧ (0 : UInt8) ∉ call.2 := by
  obtain ⟨key', value', hload⟩ := configLoad_fileText hshort ⟨key, value, ⟨conf, [], []⟩⟩
  have hsaved : ((lineCalls (lines.map ConfigLine.text)).foldl Saved.save ⟨conf, [], []⟩).calls =
      lineCalls (lines.map ConfigLine.text) := calls_foldl_save _ _
  constructor
  · rintro ⟨run, hrun, hcalls⟩ line hline call hcall
    rw [hload] at hrun
    cases hrun
    -- the bytes of each call went through the scan
    have hmem : call ∈ lineCalls (lines.map ConfigLine.text) := by
      rw [← hsaved, hcalls]
      exact List.mem_filterMap.mpr ⟨line, hline, hcall⟩
    obtain ⟨text, -, htext⟩ := List.mem_filterMap.mp hmem
    rw [LineText.call] at htext
    split at htext
    · rw [← Option.some.inj htext]
      exact ⟨fun h => (LineText.mem_addAll (.inr h)).2 rfl,
        fun h => not_mem_str text (LineText.mem_addAll (.inl h)).1,
        fun h => not_mem_str text (LineText.mem_addAll (.inr h)).1⟩
    · cases htext
  · intro hplain
    refine ⟨_, hload, hsaved.trans ?_⟩
    rw [lineCalls, List.filterMap_map]
    exact List.filterMap_congr fun line hline => ConfigLine.call_lineText (hplain line hline)

section Examples

/-- Buffers of zero bytes, and the defaults. -/
def defaultRun : ConfigRun :=
  ⟨Vector.replicate _ 0, Vector.replicate _ 0, ⟨configLoadDefault, [], []⟩⟩

def listenPort : ConfigKey :=
  ⟨bytes "listen-port", by simp [bytes], by simp [bytes], by simp [bytes]⟩

/-- A comment, an empty line, `listen-port = 90` and the end of that line. -/
def portLines : List ConfigLine :=
  [.comment (bytes " listening port") (by simp [bytes]), .blank [] (by simp),
    .pair listenPort 1 1 ⟨bytes "90", by simp [bytes], by simp [bytes], by simp [bytes]⟩, .blank [] (by simp)]

theorem configLoad_inverts_iff_port :
    (∃ run, configLoad (some (fileText portLines)) defaultRun = .ok (0, run) ∧
        run.saved.calls = portLines.filterMap ConfigLine.call) ↔
      ∀ line ∈ portLines, ∀ call ∈ line.call,
        (61 : UInt8) ∉ call.2 ∧ (0 : UInt8) ∉ call.1 ∧ (0 : UInt8) ∉ call.2 :=
  configLoad_inverts_iff portLines (by decide) _ _ _

def webServiceUrl : ConfigKey :=
  ⟨bytes "web-service-url", by simp [bytes], by simp [bytes], by simp [bytes]⟩

/-- `web-service-url = http://h/?a=b`. -/
def queryLines : List ConfigLine :=
  [.pair webServiceUrl 1 1
    ⟨bytes "http://h/?a=b", by simp [bytes], by simp [bytes], by simp [bytes]⟩]

/-- The `=` of the query is lost. -/
theorem query_loses_equals :
    (∃ run, configLoad (some (fileText queryLines)) defaultRun = .ok (0, run) ∧
        run.saved.calls = [(bytes "web-service-url", bytes "http://h/?ab")]) ∧
      ¬∃ run, configLoad (some (fileText queryLines)) defaultRun = .ok (0, run) ∧
        run.saved.calls = queryLines.filterMap ConfigLine.call := by
  have hshort : ∀ line ∈ queryLines, line.text.length < lineSize := by decide
  obtain ⟨key, value, hload⟩ := configLoad_fileText hshort defaultRun
  have hcalls : ((lineCalls (queryLines.map ConfigLine.text)).foldl Saved.save defaultRun.saved).calls =
      [(bytes "web-service-url", bytes "http://h/?ab")] := by
    rw [calls_foldl_save]
    decide
  refine ⟨⟨_, hload, hcalls⟩, ?_⟩
  rintro ⟨run, hrun, hall⟩
  rw [hload] at hrun
  cases hrun
  rw [hcalls] at hall
  exact absurd hall (by decide)

end Examples

end ComfirmDmarc.Server
