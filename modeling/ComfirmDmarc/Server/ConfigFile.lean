import ComfirmDmarc.Lib.LineBreaks
import ComfirmDmarc.Server.Records

/-!
# Server -- the configuration file

`config_file.c`: the lines that `fgets` reads, the scan of a line into the
buffers `key` and `value`, which keep their bytes from line to line, and what
`config_save_value` does with a pair. The scan is simulated by one on lists,
and that one is computed by filters.
-/

namespace ComfirmDmarc.Server

open CMemory

/-! ## `config_save_value` -/

/-- `config`. -/
structure Settings where
  listenPort : Int
  maxWorkers : Int
  maxPending : Int
  maxClients : Int
  childStackSize : Int
  readBufferSize : Int
  writeBufferSize : Int
  dataBufferSize : Int
  tcpNodelay : Int
  serverName : Bytes
  hostname : Bytes
  daemonize : Int
  chroot : Bytes
  queueFile : Bytes
  queueSize : Int
  webServiceUrl : Bytes
  deriving DecidableEq

/-- `config_load_default`. -/
def configLoadDefault : Settings where
  listenPort := 25
  maxWorkers := 1
  maxPending := 128000
  maxClients := 128000
  childStackSize := 128000
  readBufferSize := 4046
  writeBufferSize := 131072
  dataBufferSize := 40000
  tcpNodelay := 1
  serverName := bytes "Comfirm DMARC Server"
  hostname := bytes "dmarc.amail.io"
  daemonize := 1
  chroot := []
  queueFile := bytes "/tmp/rest-queue"
  queueSize := 100000
  webServiceUrl := bytes "http://localhost/"

/-- The part that a connection reads. -/
example : (Config.default.hostname, Config.default.serverName, Config.default.readBufferSize,
    (Config.default.writeBufferSize : Int), Config.default.dataBufferSize) =
  (configLoadDefault.hostname, configLoadDefault.serverName, configLoadDefault.readBufferSize,
    configLoadDefault.writeBufferSize, configLoadDefault.dataBufferSize) := rfl

/-- `isspace`. -/
def isSpace (c : UInt8) : Bool := c == 32 || (9 ≤ c && c ≤ 13)

/-- `atoi`: `strtol` in base 10, which stops at the ends of a `long`, as an `int`. -/
def atoi (s : Bytes) : Int :=
  let s := s.dropWhile isSpace
  let negative := s.head? = some 45
  let digits := if negative ∨ s.head? = some 43 then s.tail else s
  let digits := digits.takeWhile fun c => 48 ≤ c && c ≤ 57
  let n := digits.foldl (fun n c => 10 * n + ((c.toNat : Int) - 48)) 0
  toInt (if negative then max (-n) (-2 ^ 63) else min n (2 ^ 63 - 1))

/-- `config_save_value`: the settings, and what is printed. -/
def configSaveValue (key value : Bytes) (conf : Settings) : Settings × Bytes :=
  if key = bytes "listen-port" then ({ conf with listenPort := atoi value }, [])
  else if key = bytes "max-workers" then ({ conf with maxWorkers := atoi value }, [])
  else if key = bytes "child-stack-size" then ({ conf with childStackSize := atoi value }, [])
  else if key = bytes "max-pending" then ({ conf with maxPending := atoi value }, [])
  else if key = bytes "max-clients" then ({ conf with maxClients := atoi value }, [])
  else if key = bytes "server-name" then ({ conf with serverName := value }, [])
  else if key = bytes "hostname" then ({ conf with hostname := value }, [])
  else if key = bytes "daemonize" then ({ conf with daemonize := atoi value }, [])
  else if key = bytes "read-buffer-size" then ({ conf with readBufferSize := atoi value }, [])
  else if key = bytes "write-buffer-size" then ({ conf with writeBufferSize := atoi value }, [])
  else if key = bytes "data-buffer-size" then ({ conf with dataBufferSize := atoi value }, [])
  else if key = bytes "tcp-nodelay" then ({ conf with tcpNodelay := atoi value }, [])
  else if key = bytes "chroot" then ({ conf with chroot := value }, [])
  else if key = bytes "queue-file" then ({ conf with queueFile := value }, [])
  else if key = bytes "queue-size" then ({ conf with queueSize := atoi value }, [])
  else if key = bytes "web-service-url" then ({ conf with webServiceUrl := value }, [])
  else (conf, bytes "Config key '" ++ key ++ bytes "' is uknown.\n")

/-! ## `config_load` -/

/-- `char line[4048]`. -/
def lineSize : Nat := 4048

/-- The bytes `fgets` stores when there is room for `n` of them. -/
def fgetsBytes : Nat → Bytes → Bytes
  | 0, _ => []
  | _, [] => []
  | n + 1, c :: file => if c = 10 then [c] else c :: fgetsBytes n file

/-- `fgets(line, lineSize, file)`, with what is left of the file; `none` for `NULL`. -/
def fgets (file : Bytes) : Option (Bytes × Bytes) :=
  if file = [] then none
  else
    let line := fgetsBytes (lineSize - 1) file
    some (line, file.drop line.length)

/-- The lines that `fgets` returns in turn (`fgetsLines_eq`). -/
def fgetsLines (file : Bytes) : List Bytes :=
  (LineBreaks.lines (· == 10) (lineSize - 1) 0 file).filter (· ≠ [])

def configKeySize : Nat := 512

def configValueSize : Nat := 4096

/-- The variables of the scan. -/
structure LineScan where
  key : Vector UInt8 configKeySize
  value : Vector UInt8 configValueSize
  keyLen : Nat
  valueLen : Nat
  isKey : Bool
  isValue : Bool

inductive LoadFault
  /-- a write behind `key` -/
  | key
  /-- a write behind `value` -/
  | value
  deriving DecidableEq

/-- `array[i] = c`. -/
def storeAt {n : Nat} (fault : LoadFault) (array : Vector UInt8 n) (i : Nat) (c : UInt8) :
    Except LoadFault (Vector UInt8 n) :=
  if i < n then .ok (array.setIfInBounds i c) else .error fault

/-- The `switch`, but for its `'#'`. -/
def scanByte (st : LineScan) (c : UInt8) : Except LoadFault LineScan :=
  if c = 61 then
    if st.isKey then do
      let key ← storeAt .key st.key st.keyLen 0
      .ok { st with key := key, isKey := false, isValue := true }
    else .ok st
  else if c = 9 ∨ c = 13 ∨ c = 10 then .ok st
  else if st.isKey then
    if c ≠ 32 then do
      let key ← storeAt .key st.key st.keyLen c
      .ok { st with key := key, keyLen := st.keyLen + 1 }
    else .ok st
  else if st.isValue then
    if c ≠ 32 ∨ st.valueLen ≠ 0 then do
      let value ← storeAt .value st.value st.valueLen c
      .ok { st with value := value, valueLen := st.valueLen + 1 }
    else .ok st
  else .ok st

/-- The loop over the bytes of a line, which ends at a `'#'`. -/
def scanLine (st : LineScan) : Bytes → Except LoadFault LineScan
  | [] => .ok st
  | c :: line => if c = 35 then .ok st else scanByte st c >>= fun st => scanLine st line

/-- What the calls of `config_save_value` have done so far, and the arguments
of these. -/
structure Saved where
  conf : Settings
  calls : List (Bytes × Bytes)
  printed : Bytes

/-- A call of `config_save_value`. -/
def Saved.save (saved : Saved) (call : Bytes × Bytes) : Saved :=
  let result := configSaveValue call.1 call.2 saved.conf
  ⟨result.1, saved.calls ++ [call], saved.printed ++ result.2⟩

/-- `config_load` between two lines. -/
structure ConfigRun where
  key : Vector UInt8 configKeySize
  value : Vector UInt8 configValueSize
  saved : Saved

/-- What follows the loop over the bytes of a line. -/
def finishLine (saved : Saved) (st : LineScan) : Except LoadFault ConfigRun := do
  let value ← storeAt .value st.value st.valueLen 0
  .ok ⟨st.key, value,
    if 0 < st.keyLen ∧ 0 < st.valueLen then saved.save (str st.key.toList, str value.toList)
    else saved⟩

/-- The body of the loop over the lines. -/
def loadLine (run : ConfigRun) (line : Bytes) : Except LoadFault ConfigRun :=
  let line := str line
  if 1 < line.length then
    scanLine ⟨run.key, run.value, 0, 0, true, false⟩ line >>= finishLine run.saved
  else .ok run

/-- `config_load`: its result, and what it has done; `none` for a file that
cannot be opened. -/
def configLoad (file : Option Bytes) (run : ConfigRun) : Except LoadFault (Int × ConfigRun) :=
  match file with
  | none => .ok (-1, run)
  | some file => do
    let run ← (fgetsLines file).foldlM loadLine run
    return (0, run)

/-! ## The lines of the file -/

/-- The first line that `fgets` stores, from column `col` of the buffer. -/
theorem lines_fgetsBytes {col : Nat} (hcol : col < lineSize - 1) {file : Bytes} (hne : file ≠ []) :
    (LineBreaks.lines (· == 10) (lineSize - 1) col file).filter (· ≠ []) =
      fgetsBytes (lineSize - 1 - col) file ::
        fgetsLines (file.drop (fgetsBytes (lineSize - 1 - col) file).length) := by
  induction file generalizing col with
  | nil => exact absurd rfl hne
  | cons c file ih =>
    obtain ⟨n, hn⟩ : ∃ n, lineSize - 1 - col = n + 1 := ⟨lineSize - 1 - col - 1, by omega⟩
    rw [LineBreaks.lines, hn, fgetsBytes]
    by_cases hc : c = 10
    · rw [if_pos (.inl (beq_iff_eq.mpr hc)), if_pos hc]
      rfl
    · by_cases hfull : col + 1 = lineSize - 1
      · -- no room is left for another byte
        have hzero : n = 0 := by omega
        rw [if_pos (.inr hfull), if_neg hc, hzero, fgetsBytes]
        rfl
      · rw [if_neg (by simp [hc, hfull]), if_neg hc]
        by_cases hfile : file = []
        · subst hfile
          cases n <;> rfl
        · have hnext := ih (show col + 1 < lineSize - 1 by omega) hfile
          obtain ⟨line, ls, hlines⟩ :=
            LineBreaks.exists_lines (· == (10 : UInt8)) (lineSize - 1) (col + 1) file
          have hline := LineBreaks.head_lines_ne_nil hfile hlines
          rw [hlines, List.filter_cons_of_pos (by simpa using hline),
            show lineSize - 1 - (col + 1) = n by omega] at hnext
          rw [hlines, List.modifyHead_cons, List.filter_cons_of_pos (by simp), List.length_cons,
            List.drop_succ_cons]
          obtain ⟨hhead, hrest⟩ := List.cons.inj hnext
          rw [hhead, hrest]

/-- **`fgets` in turn**: the file is read call by call, up to its end. -/
theorem fgetsLines_eq (file : Bytes) :
    fgetsLines file = match fgets file with
      | none => []
      | some (line, rest) => line :: fgetsLines rest := by
  by_cases hne : file = []
  · subst hne
    rfl
  · rw [fgets, if_neg hne]
    exact lines_fgetsBytes (by decide) hne

/-! ## The scan, on lists -/

/-- What a line has been read as: its key, and behind the first `=` its value. -/
structure LineText where
  isKey : Bool
  key : Bytes
  value : Bytes

def LineText.add (t : LineText) (c : UInt8) : LineText :=
  if c = 61 then { t with isKey := false }
  else if c = 9 ∨ c = 13 ∨ c = 10 then t
  else if t.isKey then if c ≠ 32 then { t with key := t.key ++ [c] } else t
  else if c ≠ 32 ∨ t.value ≠ [] then { t with value := t.value ++ [c] } else t

/-- A line up to its comment. -/
def LineText.addAll (t : LineText) (line : Bytes) : LineText :=
  (line.takeWhile (· ≠ 35)).foldl LineText.add t

/-- What the string in the line buffer is read as. -/
def lineText (line : Bytes) : LineText := LineText.addAll ⟨true, [], []⟩ (str line)

/-- The arguments of the call of `config_save_value`, if there is one. -/
def LineText.call (t : LineText) : Option (Bytes × Bytes) :=
  if t.key ≠ [] ∧ t.value ≠ [] then some (t.key, t.value) else none

/-- The variables of the scan for such a line, over some buffers. -/
def LineText.scan (t : LineText) (key : Vector UInt8 configKeySize)
    (value : Vector UInt8 configValueSize) : LineScan :=
  ⟨key, value, t.key.length, t.value.length, t.isKey, !t.isKey⟩

/-- The buffers hold what was read; behind a complete key stands its terminator. -/
structure LineText.HeldBy (t : LineText) (key : Vector UInt8 configKeySize)
    (value : Vector UInt8 configValueSize) : Prop where
  key : ∃ junk, key.toList = t.key ++ junk ∧ (t.isKey = false → junk.head? = some 0)
  value : ∃ junk, value.toList = t.value ++ junk

/-- A byte is stored behind those that are there. -/
theorem storeAt_length {n : Nat} (fault : LoadFault) {array : Vector UInt8 n} {front junk : Bytes}
    (harray : array.toList = front ++ junk) (h : front.length < n) (c : UInt8) :
    ∃ array' : Vector UInt8 n, storeAt fault array front.length c = .ok array' ∧
      array'.toList = front ++ c :: junk.tail := by
  refine ⟨array.setIfInBounds front.length c, if_pos h, ?_⟩
  have hlen : n = front.length + junk.length := by
    rw [← List.length_append, ← harray, Vector.length_toList]
  rw [toList_setIfInBounds, harray]
  cases junk with
  | nil =>
    rw [List.length_nil] at hlen
    omega
  | cons d junk => rw [set_length_append, List.tail_cons]

section

variable {k v : Bytes} {key : Vector UInt8 configKeySize} {value : Vector UInt8 configValueSize}

/-- The first `=` ends the key. -/
theorem scanByte_keyEnd (h : LineText.HeldBy ⟨true, k, v⟩ key value) (hkey : k.length < configKeySize) :
    ∃ key', scanByte (LineText.scan ⟨true, k, v⟩ key value) 61 =
        .ok (LineText.scan ⟨false, k, v⟩ key' value) ∧ LineText.HeldBy ⟨false, k, v⟩ key' value := by
  obtain ⟨⟨keyJunk, hkeyList, -⟩, hvalue⟩ := h
  obtain ⟨key', hstore, hlist⟩ := storeAt_length .key hkeyList hkey 0
  have hisKey : (LineText.scan ⟨true, k, v⟩ key value).isKey = true := rfl
  refine ⟨key', ?_, ⟨_, hlist, fun _ => rfl⟩, hvalue⟩
  rw [scanByte, if_pos rfl, if_pos hisKey]
  exact congrArg (· >>= _) hstore

/-- A byte of the key. -/
theorem scanByte_key {c : UInt8} (heq : c ≠ 61) (hskip : ¬(c = 9 ∨ c = 13 ∨ c = 10)) (hc : c ≠ 32)
    (h : LineText.HeldBy ⟨true, k, v⟩ key value) (hkey : k.length < configKeySize) :
    ∃ key', scanByte (LineText.scan ⟨true, k, v⟩ key value) c =
        .ok (LineText.scan ⟨true, k ++ [c], v⟩ key' value) ∧
      LineText.HeldBy ⟨true, k ++ [c], v⟩ key' value := by
  obtain ⟨⟨keyJunk, hkeyList, -⟩, hvalue⟩ := h
  obtain ⟨key', hstore, hlist⟩ := storeAt_length .key hkeyList hkey c
  have hisKey : (LineText.scan ⟨true, k, v⟩ key value).isKey = true := rfl
  refine ⟨key', ?_, ⟨keyJunk.tail, ?_, fun hend => ?_⟩, hvalue⟩
  · rw [scanByte, if_neg heq, if_neg hskip, if_pos hisKey, if_pos hc, LineText.scan, LineText.scan,
      List.length_append, hstore]
    rfl
  · rw [hlist, List.append_assoc, List.singleton_append]
  · cases hend

/-- A byte of the value. -/
theorem scanByte_value {c : UInt8} (heq : c ≠ 61) (hskip : ¬(c = 9 ∨ c = 13 ∨ c = 10))
    (hc : c ≠ 32 ∨ v.length ≠ 0) (h : LineText.HeldBy ⟨false, k, v⟩ key value)
    (hvalue : v.length < configValueSize) :
    ∃ value', scanByte (LineText.scan ⟨false, k, v⟩ key value) c =
        .ok (LineText.scan ⟨false, k, v ++ [c]⟩ key value') ∧
      LineText.HeldBy ⟨false, k, v ++ [c]⟩ key value' := by
  obtain ⟨hkey, ⟨valueJunk, hvalueList⟩⟩ := h
  obtain ⟨value', hstore, hlist⟩ := storeAt_length .value hvalueList hvalue c
  have hnotKey : ¬(LineText.scan ⟨false, k, v⟩ key value).isKey = true := Bool.false_ne_true
  have hisValue : (LineText.scan ⟨false, k, v⟩ key value).isValue = true := rfl
  have hstored : c ≠ 32 ∨ (LineText.scan ⟨false, k, v⟩ key value).valueLen ≠ 0 := hc
  refine ⟨value', ?_, hkey, ⟨valueJunk.tail, ?_⟩⟩
  · rw [scanByte, if_neg heq, if_neg hskip, if_neg hnotKey, if_pos hisValue, if_pos hstored,
      LineText.scan, LineText.scan, List.length_append, hstore]
    rfl
  · rw [hlist, List.append_assoc, List.singleton_append]

/-- **The scan of a byte is the one on lists.** -/
theorem scanByte_scan {t : LineText} (h : t.HeldBy key value) (c : UInt8)
    (hkey : t.key.length < configKeySize) (hvalue : t.value.length < configValueSize) :
    ∃ key' value', scanByte (t.scan key value) c = .ok ((t.add c).scan key' value') ∧
      (t.add c).HeldBy key' value' := by
  have hsame : t.add c = t → scanByte (t.scan key value) c = .ok (t.scan key value) →
      ∃ key' value', scanByte (t.scan key value) c = .ok ((t.add c).scan key' value') ∧
        (t.add c).HeldBy key' value' := by
    intro hadd hscan
    rw [hadd]
    exact ⟨key, value, hscan, h⟩
  obtain ⟨isKey, k, v⟩ := t
  by_cases heq : c = 61
  · subst heq
    cases isKey with
    | true =>
      obtain ⟨key', hscan, hheld⟩ := scanByte_keyEnd h hkey
      exact ⟨key', value, hscan, hheld⟩
    | false => exact hsame rfl rfl
  · by_cases hskip : c = 9 ∨ c = 13 ∨ c = 10
    · exact hsame (by rw [LineText.add, if_neg heq, if_pos hskip])
        (by rw [scanByte, if_neg heq, if_pos hskip])
    · cases isKey with
      | true =>
        have hisKey : (LineText.scan ⟨true, k, v⟩ key value).isKey = true := rfl
        by_cases hc : c ≠ 32
        · have hadd : LineText.add ⟨true, k, v⟩ c = ⟨true, k ++ [c], v⟩ := by
            rw [LineText.add, if_neg heq, if_neg hskip, if_pos rfl, if_pos hc]
          obtain ⟨key', hscan, hheld⟩ := scanByte_key heq hskip hc h hkey
          rw [hadd]
          exact ⟨key', value, hscan, hheld⟩
        · exact hsame (by rw [LineText.add, if_neg heq, if_neg hskip, if_pos rfl, if_neg hc])
            (by rw [scanByte, if_neg heq, if_neg hskip, if_pos hisKey, if_neg hc])
      | false =>
        have hnotKey : ¬(LineText.scan ⟨false, k, v⟩ key value).isKey = true := Bool.false_ne_true
        have hisValue : (LineText.scan ⟨false, k, v⟩ key value).isValue = true := rfl
        have hempty : (c ≠ 32 ∨ v.length ≠ 0) ↔ (c ≠ 32 ∨ v ≠ []) :=
          or_congr_right (not_congr List.length_eq_zero_iff)
        by_cases hc : c ≠ 32 ∨ v ≠ []
        · have hadd : LineText.add ⟨false, k, v⟩ c = ⟨false, k, v ++ [c]⟩ := by
            rw [LineText.add, if_neg heq, if_neg hskip, if_neg Bool.false_ne_true, if_pos hc]
          obtain ⟨value', hscan, hheld⟩ := scanByte_value heq hskip (hempty.mpr hc) h hvalue
          rw [hadd]
          exact ⟨key, value', hscan, hheld⟩
        · refine hsame ?_ ?_
          · rw [LineText.add, if_neg heq, if_neg hskip, if_neg Bool.false_ne_true, if_neg hc]
          · rw [scanByte, if_neg heq, if_neg hskip, if_neg hnotKey, if_pos hisValue]
            exact if_neg fun hs => hc (hempty.mp hs)

end

/-- What an `add` can do. -/
theorem LineText.add_cases (t : LineText) (c : UInt8) :
    t.add c = t ∨ t.add c = { t with isKey := false } ∨
      (c ≠ 61 ∧ t.isKey = true ∧ t.add c = { t with key := t.key ++ [c] }) ∨
      (c ≠ 61 ∧ t.isKey = false ∧ t.add c = { t with value := t.value ++ [c] }) := by
  rw [LineText.add]
  split
  · exact .inr (.inl rfl)
  · next heq =>
    split
    · exact .inl rfl
    · split
      · next hkey =>
        split
        · exact .inr (.inr (.inl ⟨heq, hkey, rfl⟩))
        · exact .inl rfl
      · next hkey =>
        split
        · exact .inr (.inr (.inr ⟨heq, by simpa using hkey, rfl⟩))
        · exact .inl rfl

namespace LineText

theorem addAll_comment (t : LineText) (line : Bytes) : t.addAll (35 :: line) = t := by
  rw [addAll, List.takeWhile_cons_of_neg (by simp), List.foldl_nil]

theorem addAll_cons (t : LineText) {c : UInt8} (hc : c ≠ 35) (line : Bytes) :
    t.addAll (c :: line) = (t.add c).addAll line := by
  rw [addAll, List.takeWhile_cons_of_pos (by simpa using hc), List.foldl_cons, addAll]

/-- **An invariant of the scan**: what each byte preserves, a line does. -/
theorem addAll_induction {P : LineText → Prop} (line : Bytes)
    (step : ∀ t c, c ∈ line → P t → P (t.add c)) {t : LineText} (h : P t) : P (t.addAll line) := by
  induction line generalizing t with
  | nil => exact h
  | cons c line ih =>
    by_cases hc : c = 35
    · rw [hc, addAll_comment]
      exact h
    · rw [addAll_cons t hc]
      exact ih (fun t d hd => step t d (List.mem_cons_of_mem _ hd)) (step t c List.mem_cons_self h)

/-- No byte is removed from a key. -/
theorem length_key_le (t : LineText) (line : Bytes) :
    t.key.length ≤ (t.addAll line).key.length := by
  refine addAll_induction (P := fun t' => t.key.length ≤ t'.key.length) line (fun t' c _ h => ?_)
    (Nat.le_refl _)
  rcases t'.add_cases c with hadd | hadd | ⟨-, -, hadd⟩ | ⟨-, -, hadd⟩
  · rwa [hadd]
  · rwa [hadd]
  · rw [hadd, List.length_append]
    exact h.trans (Nat.le_add_right _ _)
  · rwa [hadd]

/-- What was read so far. -/
def size (t : LineText) : Nat := t.key.length + t.value.length

theorem size_add_le (t : LineText) (c : UInt8) : (t.add c).size ≤ t.size + 1 := by
  rcases t.add_cases c with hadd | hadd | ⟨-, -, hadd⟩ | ⟨-, -, hadd⟩
  · rw [hadd]
    exact Nat.le_succ _
  · rw [hadd]
    exact Nat.le_succ _
  · simp only [hadd, size, List.length_append, List.length_singleton]
    omega
  · simp only [hadd, size, List.length_append, List.length_singleton]
    omega

theorem size_addAll_le (t : LineText) (line : Bytes) : (t.addAll line).size ≤ t.size + line.length := by
  induction line generalizing t with
  | nil => exact Nat.le_refl _
  | cons c line ih =>
    by_cases hc : c = 35
    · rw [hc, addAll_comment]
      exact Nat.le_add_right _ _
    · have hadd := t.size_add_le c
      have hnext := ih (t.add c)
      rw [addAll_cons t hc, List.length_cons]
      omega

/-- The bytes of a key and of a value are bytes of the line, but no `=`. -/
theorem mem_addAll {line : Bytes} {d : UInt8}
    (h : d ∈ (LineText.addAll ⟨true, [], []⟩ line).key ∨
      d ∈ (LineText.addAll ⟨true, [], []⟩ line).value) : d ∈ line ∧ d ≠ 61 := by
  have hall := addAll_induction (t := ⟨true, [], []⟩)
    (P := fun t => ∀ d, d ∈ t.key ∨ d ∈ t.value → d ∈ line ∧ d ≠ 61) line (fun t c hc ih d hd => ?_)
    (fun d hd => by simp at hd)
  · exact hall d h
  · rcases t.add_cases c with hadd | hadd | ⟨heq, -, hadd⟩ | ⟨heq, -, hadd⟩
    · rw [hadd] at hd
      exact ih d hd
    · rw [hadd] at hd
      exact ih d hd
    · simp only [hadd, List.mem_append, List.mem_singleton] at hd
      rcases hd with (hd | rfl) | hd
      · exact ih d (.inl hd)
      · exact ⟨hc, heq⟩
      · exact ih d (.inr hd)
    · simp only [hadd, List.mem_append, List.mem_singleton] at hd
      rcases hd with hd | hd | rfl
      · exact ih d (.inl hd)
      · exact ih d (.inr hd)
      · exact ⟨hc, heq⟩

/-- There is no value in front of the `=`. -/
theorem value_of_isKey {line : Bytes} (h : (LineText.addAll ⟨true, [], []⟩ line).isKey = true) :
    (LineText.addAll ⟨true, [], []⟩ line).value = [] := by
  have hall := addAll_induction (t := ⟨true, [], []⟩)
    (P := fun t => t.isKey = true → t.value = []) line (fun t c _ ih hkey => ?_) (fun _ => rfl)
  · exact hall h
  · rcases t.add_cases c with hadd | hadd | ⟨-, htrue, hadd⟩ | ⟨-, hfalse, hadd⟩
    · rw [hadd] at hkey ⊢
      exact ih hkey
    · rw [hadd] at hkey
      cases hkey
    · rw [hadd]
      exact ih htrue
    · rw [hadd] at hkey
      cases hfalse.symm.trans hkey

end LineText

/-- **The scan of a line is the one on lists**, as long as the key fits. -/
theorem scanLine_scan (line : Bytes) {t : LineText} {key : Vector UInt8 configKeySize}
    {value : Vector UInt8 configValueSize} (h : t.HeldBy key value)
    (hkey : (t.addAll line).key.length < configKeySize)
    (hsize : t.size + line.length < configValueSize) :
    ∃ key' value', scanLine (t.scan key value) line = .ok ((t.addAll line).scan key' value') ∧
      (t.addAll line).HeldBy key' value' := by
  induction line generalizing t key value with
  | nil => exact ⟨key, value, rfl, h⟩
  | cons c line ih =>
    rw [scanLine]
    by_cases hc : c = 35
    · rw [if_pos hc, hc, LineText.addAll_comment]
      exact ⟨key, value, rfl, h⟩
    · rw [LineText.addAll_cons t hc] at hkey
      rw [List.length_cons] at hsize
      have hstart : t.key.length < configKeySize := by
        have hadd := t.length_key_le (c :: line)
        rw [LineText.addAll_cons t hc] at hadd
        exact hadd.trans_lt hkey
      have hvalue : t.value.length ≤ t.size := Nat.le_add_left _ _
      have hadd := t.size_add_le c
      obtain ⟨key1, value1, hscan, hheld⟩ := scanByte_scan h c hstart (by omega)
      rw [if_neg hc, LineText.addAll_cons t hc, hscan]
      exact ih hheld hkey (by omega)

/-- **The call is made with what was read.** -/
theorem finishLine_scan {t : LineText} {key : Vector UInt8 configKeySize}
    {value : Vector UInt8 configValueSize} (h : t.HeldBy key value)
    (hsize : t.value.length < configValueSize) (hkey : (0 : UInt8) ∉ t.key)
    (hvalue : (0 : UInt8) ∉ t.value) (hisKey : t.isKey = true → t.value = []) (saved : Saved) :
    ∃ value', finishLine saved (t.scan key value) =
      .ok ⟨key, value', t.call.elim saved saved.save⟩ := by
  obtain ⟨⟨keyJunk, hkeyList, hterm⟩, ⟨valueJunk, hvalueList⟩⟩ := h
  obtain ⟨value', hstore, hvalueList'⟩ := storeAt_length .value hvalueList hsize 0
  refine ⟨value', ?_⟩
  have hfinish : finishLine saved (t.scan key value) =
      .ok ⟨key, value', if 0 < t.key.length ∧ 0 < t.value.length then
        saved.save (str key.toList, str value'.toList) else saved⟩ := by
    rw [finishLine]
    exact congrArg (· >>= _) hstore
  have hpos : (0 < t.key.length ∧ 0 < t.value.length) ↔ (t.key ≠ [] ∧ t.value ≠ []) :=
    and_congr List.length_pos_iff List.length_pos_iff
  rw [hfinish, LineText.call]
  by_cases hpair : t.key ≠ [] ∧ t.value ≠ []
  · -- both strings end where the scan stopped
    have hjunk : ∃ junk, keyJunk = 0 :: junk := by
      have hhead := hterm (Bool.eq_false_iff.mpr fun h => hpair.2 (hisKey h))
      cases keyJunk with
      | nil => cases hhead
      | cons d junk => exact ⟨junk, by rw [Option.some.inj hhead]⟩
    obtain ⟨junk, rfl⟩ := hjunk
    rw [if_pos (hpos.mpr hpair), if_pos hpair, hkeyList, str_append_nul hkey, hvalueList',
      str_append_nul hvalue]
    rfl
  · rw [if_neg (mt hpos.mp hpair), if_neg hpair]
    rfl

/-- A line of one byte has no pair. -/
theorem lineText_of_short {line : Bytes} (h : (str line).length ≤ 1) : (lineText line).call = none := by
  have hsize : (lineText line).size ≤ 0 + (str line).length := LineText.size_addAll_le _ _
  rw [LineText.call, if_neg]
  rintro ⟨hkey, hvalue⟩
  have hkeyPos := List.length_pos_iff.mpr hkey
  have hvaluePos := List.length_pos_iff.mpr hvalue
  rw [LineText.size] at hsize
  omega

/-- **The body of the loop**: the call for the line. -/
theorem loadLine_eq (run : ConfigRun) {line : Bytes}
    (hkey : (lineText line).key.length < configKeySize) (hline : line.length < configValueSize) :
    ∃ key value, loadLine run line =
      .ok ⟨key, value, (lineText line).call.elim run.saved run.saved.save⟩ := by
  rw [loadLine]
  by_cases hshort : 1 < (str line).length
  · have hlen : (str line).length < configValueSize :=
      (List.takeWhile_prefix _).length_le.trans_lt hline
    have hheld : LineText.HeldBy ⟨true, [], []⟩ run.key run.value :=
      ⟨⟨run.key.toList, rfl, nofun⟩, ⟨run.value.toList, rfl⟩⟩
    have hrun : ∃ key value, scanLine ⟨run.key, run.value, 0, 0, true, false⟩ (str line) =
        .ok ((lineText line).scan key value) ∧ (lineText line).HeldBy key value :=
      scanLine_scan (str line) hheld hkey (by simpa [LineText.size] using hlen)
    obtain ⟨key, value, hscan, hheld'⟩ := hrun
    have hsize : (lineText line).size ≤ 0 + (str line).length := LineText.size_addAll_le _ _
    have hvalueLen : (lineText line).value.length ≤ (lineText line).size := Nat.le_add_left _ _
    obtain ⟨value', hfinish⟩ := finishLine_scan hheld' (by omega)
      (fun h => not_mem_str line (LineText.mem_addAll (.inl h)).1)
      (fun h => not_mem_str line (LineText.mem_addAll (.inr h)).1) LineText.value_of_isKey run.saved
    refine ⟨key, value', ?_⟩
    rw [if_pos hshort, hscan]
    exact hfinish
  · refine ⟨run.key, run.value, ?_⟩
    rw [if_neg hshort, lineText_of_short (Nat.not_lt.mp hshort)]
    rfl

/-! ## The loop over the lines -/

/-- The calls for some lines. -/
def lineCalls (lines : List Bytes) : List (Bytes × Bytes) :=
  lines.filterMap fun line => (lineText line).call

theorem lineCalls_cons (line : Bytes) (lines : List Bytes) :
    lineCalls (line :: lines) = (lineText line).call.toList ++ lineCalls lines := by
  rw [lineCalls, List.filterMap_cons]
  cases (lineText line).call with
  | none => rfl
  | some call => rfl

theorem loadLines_eq {lines : List Bytes}
    (hkey : ∀ line ∈ lines, (lineText line).key.length < configKeySize)
    (hline : ∀ line ∈ lines, line.length < configValueSize) (run : ConfigRun) :
    ∃ key value, lines.foldlM loadLine run =
      .ok ⟨key, value, (lineCalls lines).foldl Saved.save run.saved⟩ := by
  induction lines generalizing run with
  | nil => exact ⟨run.key, run.value, rfl⟩
  | cons line lines ih =>
    rw [List.forall_mem_cons] at hkey hline
    obtain ⟨key1, value1, hload⟩ := loadLine_eq run hkey.1 hline.1
    obtain ⟨key, value, hloads⟩ := ih hkey.2 hline.2
      ⟨key1, value1, (lineText line).call.elim run.saved run.saved.save⟩
    refine ⟨key, value, ?_⟩
    rw [List.foldlM_cons, hload]
    refine hloads.trans ?_
    rw [lineCalls_cons]
    cases (lineText line).call with
    | none => rfl
    | some call => rfl

theorem calls_foldl_save (saved : Saved) (calls : List (Bytes × Bytes)) :
    (calls.foldl Saved.save saved).calls = saved.calls ++ calls := by
  induction calls generalizing saved with
  | nil => simp
  | cons call calls ih =>
    rw [List.foldl_cons, ih]
    simp [Saved.save]

theorem length_fgetsLines {file line : Bytes} (h : line ∈ fgetsLines file) :
    line.length < configValueSize := by
  have hbroken : LineBreaks.Broken (· == (10 : UInt8)) (lineSize - 1) 0 _ :=
    LineBreaks.broken_lines (by decide) file
  have hle := hbroken.length_le line (List.mem_of_mem_filter h)
  exact hle.trans_lt (by decide)

/-- **What `config_load` does with a file** whose keys fit: the calls for its
lines, in turn. -/
theorem configLoad_eq {file : Bytes}
    (hkey : ∀ line ∈ fgetsLines file, (lineText line).key.length < configKeySize) (run : ConfigRun) :
    ∃ key value, configLoad (some file) run =
      .ok (0, ⟨key, value, (lineCalls (fgetsLines file)).foldl Saved.save run.saved⟩) := by
  obtain ⟨key, value, hloads⟩ := loadLines_eq hkey (fun line => length_fgetsLines) run
  refine ⟨key, value, ?_⟩
  rw [configLoad, hloads]
  rfl

end ComfirmDmarc.Server
