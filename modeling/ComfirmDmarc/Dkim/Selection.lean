import ComfirmDmarc.Dkim.Validate
import Mathlib.Data.List.Nodup
import Mathlib.Data.List.Perm.Subperm

/-!
# Dkim -- which headers are signed

The loop of `dkim_validate` over the names in `h=`, and the selection that the
standard asks for: each name takes the last header that has it and is not taken
yet. The loop takes every header whose lower-case name starts with the name as
it is written.
-/

namespace ComfirmDmarc.Dkim

open CMemory

/-! ## Taking headers by position -/

/-- The name of the `e`-th header in lower case. -/
def nameAt (headers : List StringPair) (e : Nat) : Bytes :=
  ((headers[e]?.map StringPair.key).getD []).map tolower

/-- The headers that the inner loop takes for `name`. -/
def prefixed (headers : List StringPair) (name : Bytes) : List Nat :=
  (List.range headers.length).filter fun e => startsWith (nameAt headers e) name

/-- What the code takes for the `j`-th name that it cuts out of `h=`. -/
def taken (headers : List StringPair) (h : Bytes) (j : Nat) : List Nat :=
  (((headerNames [] h)[j]?).map (prefixed headers)).getD []

/-- `inc_headers`, by the positions of the headers in it. -/
def incHeaders (headers : List StringPair) (h : Bytes) : List Nat :=
  (headerNames [] h).flatMap (prefixed headers)

/-! ## The reference -/

/-- The last header that is not taken yet and has the name, in any letter
case. -/
def lastUnused (headers : List StringPair) (used : List Nat) (name : Bytes) : Option Nat :=
  (List.range headers.length).reverse.find? fun e =>
    e ∉ used ∧ nameAt headers e = name.map tolower

/-- What each name takes. -/
def selectFrom (headers : List StringPair) (used : List Nat) : List Bytes → List (List Nat)
  | [] => []
  | name :: names =>
    match if name = [] then none else lastUnused headers used name with
    | none => [] :: selectFrom headers used names
    | some e => [e] :: selectFrom headers (e :: used) names

/-- What the `j`-th name in `h=` takes. -/
def wanted (headers : List StringPair) (h : Bytes) (j : Nat) : List Nat :=
  ((selectFrom headers [] (h.splitOn 58))[j]?).getD []

/-- **The selection of the standard.** -/
def selection (headers : List StringPair) (h : Bytes) : List Nat :=
  (selectFrom headers [] (h.splitOn 58)).flatten

/-- The entries of `inc_headers` fit its slots, and each name in `h=` puts the
header in it that the standard asks for. -/
def Selects (headers : List StringPair) (h : Bytes) : Prop :=
  (incHeaders headers h).length ≤ incHeadersMax ∧ ∀ j, taken headers h j = wanted headers h j

/-! ## When the loop takes the right headers -/

/-- The name is new, in lower case, and the name of one header; no other
header's name starts with it. -/
def Found (headers : List StringPair) (earlier : List Bytes) (name : Bytes) : Prop :=
  name ≠ [] ∧ (∀ n ∈ earlier, n.map tolower ≠ name) ∧
    ∃ i < headers.length, nameAt headers i = name ∧
      ∀ e < headers.length, startsWith (nameAt headers e) name = true → e = i

/-- No header's name starts with what the code reads, and the headers with this
name are all taken by earlier ones. -/
def Absent (headers : List StringPair) (earlier : List Bytes) (name read : Bytes) : Prop :=
  (∀ e < headers.length, startsWith (nameAt headers e) read = false) ∧
    (name = [] ∨
      (List.range headers.length).countP (fun e => nameAt headers e = name.map tolower) ≤
        earlier.countP fun n => n.map tolower = name.map tolower)

/-- **Every name in `h=` is found or absent**; `read` is the name as the code
cuts it out. -/
def NamesSound (headers : List StringPair) (h : Bytes) : Prop :=
  ∀ (j : Nat) (name read : Bytes), (h.splitOn 58)[j]? = some name →
    (headerNames [] h)[j]? = some read →
      (Found headers ((h.splitOn 58).take j) name ∧ read = name) ∨
        Absent headers ((h.splitOn 58).take j) name read

/-- No name that takes a header is written with a capital letter or read with
the colon behind it. -/
def NoneMissed (headers : List StringPair) (h : Bytes) : Prop :=
  ∀ j name, (h.splitOn 58)[j]? = some name → wanted headers h j ≠ [] →
    name.map tolower = name ∧ (headerNames [] h)[j]? = some name

/-! ## The positions stand for the headers -/

theorem filter_eq_filterMap (p : StringPair → Bool) (headers : List StringPair) :
    headers.filter p =
      ((List.range headers.length).filter fun e => headers[e]?.any p).filterMap (headers[·]?) := by
  induction headers using List.reverseRecOn with
  | nil => rfl
  | append_singleton headers h ih =>
    have hfront : ((List.range headers.length).filter fun e => (headers ++ [h])[e]?.any p).filterMap
        ((headers ++ [h])[·]?) = headers.filter p := by
      rw [ih]
      have hget : ∀ e ∈ List.range headers.length, (headers ++ [h])[e]? = headers[e]? := by
        intro e he
        exact List.getElem?_append_left (List.mem_range.mp he)
      rw [List.filter_congr fun e he => by rw [hget e he]]
      exact List.filterMap_congr fun e he => hget e (List.mem_filter.mp he).1
    rw [List.filter_append, List.length_append, List.length_singleton, List.range_succ,
      List.filter_append, List.filterMap_append, hfront]
    congr 1
    by_cases hp : p h = true <;> simp [hp]

/-- **`inc_headers` holds the headers at these positions.** -/
theorem includeHeaders_eq (headers : List StringPair) (h : Bytes) :
    includeHeaders headers h = (incHeaders headers h).filterMap (headers[·]?) := by
  rw [includeHeaders, incHeaders, List.filterMap_flatMap]
  refine congrArg (List.flatMap · (headerNames [] h)) (funext fun name => ?_)
  rw [filter_eq_filterMap, prefixed]
  congr 1
  refine List.filter_congr fun e he => ?_
  have hlt := List.mem_range.mp he
  rw [nameAt, List.getElem?_eq_getElem hlt]
  rfl

/-! ## The names -/

/-- The names that the code cuts out, against the pieces between the colons:
the last one may have a colon behind it, and then an empty piece is left. -/
theorem headerNames_pieces (front h : Bytes) (j : Nat) :
    (∀ read, (headerNames front h)[j]? = some read → ∃ name, (pieces 58 front h)[j]? = some name ∧
        (read = name ∨ read = name ++ [58])) ∧
      ((headerNames front h)[j]? = none → h ≠ [] →
        (pieces 58 front h)[j]? = none ∨ (pieces 58 front h)[j]? = some []) := by
  fun_induction headerNames front h generalizing j with
  | case1 front => simp
  | case2 front c =>
    by_cases hc : c = 58
    · subst hc
      rw [pieces_sep, pieces_nil]
      match j with
      | 0 => simp
      | 1 => simp
      | j + 2 => simp
    · rw [pieces_cons hc, pieces_nil]
      match j with
      | 0 => simp
      | j + 1 => simp
  | case3 front d s ih =>
    rw [pieces_sep]
    match j with
    | 0 => simp
    | j + 1 => simpa using ih j
  | case4 front c d s hc ih =>
    rw [pieces_cons hc]
    simpa using ih j

theorem read_cases {h : Bytes} {j : Nat} {read : Bytes} (hread : (headerNames [] h)[j]? = some read) :
    ∃ name, (h.splitOn 58)[j]? = some name ∧ (read = name ∨ read = name ++ [58]) := by
  rw [← pieces_eq_splitOn]
  exact (headerNames_pieces [] h j).1 read hread

theorem unread_cases {h : Bytes} {j : Nat} (hread : (headerNames [] h)[j]? = none) :
    (h.splitOn 58)[j]? = none ∨ (h.splitOn 58)[j]? = some [] := by
  rcases List.eq_nil_or_concat' h with rfl | ⟨s, c, rfl⟩
  · match j with
    | 0 => exact .inr rfl
    | j + 1 => exact .inl rfl
  · rw [← pieces_eq_splitOn]
    exact (headerNames_pieces [] _ j).2 hread (by simp)

/-! ## What the reference takes -/

/-- The headers under a lower-case name, the last one first. -/
def owed (headers : List StringPair) (low : Bytes) : List Nat :=
  (List.range headers.length).reverse.filter fun e => nameAt headers e = low

theorem owed_nodup (headers : List StringPair) (low : Bytes) : (owed headers low).Nodup :=
  ((List.reverse_perm _).nodup_iff.mpr List.nodup_range).filter _

theorem mem_owed {headers : List StringPair} {low : Bytes} {e : Nat} :
    e ∈ owed headers low ↔ e < headers.length ∧ nameAt headers e = low := by
  simp [owed]

theorem lastUnused_eq (headers : List StringPair) (used : List Nat) (name : Bytes) :
    lastUnused headers used name =
      ((owed headers (name.map tolower)).filter fun e => e ∉ used).head? := by
  rw [lastUnused, owed, List.filter_filter, List.head?_filter]
  congr 1
  funext e
  simp

/-- How often a lower-case name was asked for. -/
def asked (names : List Bytes) (low : Bytes) : Nat := names.countP fun n => n.map tolower = low

theorem asked_append_singleton (names : List Bytes) (name low : Bytes) :
    asked (names ++ [name]) low = asked names low + if name.map tolower = low then 1 else 0 := by
  simp [asked, List.countP_append]

/-- **The headers in use are those that were asked for**: each time a name is
asked for, the first header owed for it is taken. -/
def Served (headers : List StringPair) (used : List Nat) (earlier : List Bytes) : Prop :=
  ∀ low ≠ [], (owed headers low).filter (fun e => e ∉ used) =
    (owed headers low).drop (asked earlier low)

theorem Served.skip {headers : List StringPair} {used : List Nat} {earlier : List Bytes}
    (h : Served headers used earlier) {name : Bytes}
    (hname : name = [] ∨ lastUnused headers used name = none) :
    Served headers used (earlier ++ [name]) := by
  intro low hlow
  rw [h low hlow, asked_append_singleton]
  by_cases heq : name.map tolower = low
  · rw [if_pos heq]
    rcases hname with rfl | hnone
    · exact absurd heq.symm hlow
    · rw [lastUnused_eq, heq, h low hlow, List.head?_eq_none_iff] at hnone
      rw [hnone, List.drop_eq_nil_of_le]
      rw [List.drop_eq_nil_iff] at hnone
      omega
  · rw [if_neg heq, Nat.add_zero]

theorem Served.take {headers : List StringPair} {used : List Nat} {earlier : List Bytes}
    (h : Served headers used earlier) {name : Bytes} {e : Nat}
    (he : lastUnused headers used name = some e) (hname : name ≠ []) :
    Served headers (e :: used) (earlier ++ [name]) := by
  intro low hlow
  have hmore : (owed headers low).filter (fun x => x ∉ e :: used) =
      ((owed headers low).drop (asked earlier low)).filter fun x => x ≠ e := by
    rw [← h low hlow, List.filter_filter]
    refine List.filter_congr fun x _ => ?_
    simp [not_or]
  have hlowName : name.map tolower ≠ [] := by simpa using hname
  rw [lastUnused_eq, h _ hlowName] at he
  obtain ⟨rest, hrest⟩ := List.head?_eq_some_iff.mp he
  rw [hmore, asked_append_singleton]
  by_cases heq : name.map tolower = low
  · -- the first of the headers that are left
    rw [heq] at hrest
    have hnodup : (e :: rest).Nodup := hrest ▸ (owed_nodup headers low).sublist (List.drop_sublist _ _)
    rw [if_pos heq, ← List.drop_drop, hrest, List.drop_succ_cons, List.drop_zero,
      List.filter_cons_of_neg (by simp), List.filter_eq_self]
    intro x hx
    have : x ≠ e := fun hxe => (List.nodup_cons.mp hnodup).1 (hxe ▸ hx)
    simpa using this
  · rw [if_neg heq, Nat.add_zero, List.filter_eq_self]
    intro x hx
    have hxlow := (mem_owed.mp (List.mem_of_mem_drop hx)).2
    have helow := (mem_owed.mp (List.mem_of_mem_drop (hrest ▸ List.mem_cons_self))).2
    have : x ≠ e := fun hxe => heq (by rw [← helow, ← hxlow, hxe])
    simpa using this

/-- What a name takes after the earlier ones. -/
def takes (headers : List StringPair) (earlier : List Bytes) (name : Bytes) : List Nat :=
  if name = [] then []
  else ((owed headers (name.map tolower)).drop (asked earlier (name.map tolower))).head?.toList

theorem selectFrom_getElem {headers : List StringPair} {used : List Nat} {earlier names : List Bytes}
    (h : Served headers used earlier) (j : Nat) :
    (selectFrom headers used names)[j]? =
      names[j]?.map (takes headers (earlier ++ names.take j)) := by
  induction names generalizing used earlier j with
  | nil => simp [selectFrom]
  | cons name names ih =>
    have hthis : (if name = [] then none else lastUnused headers used name).toList =
        takes headers earlier name := by
      rw [takes]
      split
      · rfl
      · rename_i hname
        rw [lastUnused_eq, h _ (by simpa using hname)]
    have hcons : earlier ++ [name] ++ names.take (j - 1) = earlier ++ name :: names.take (j - 1) := by
      simp
    rw [selectFrom]
    cases hfound : if name = [] then none else lastUnused headers used name with
    | none =>
      rw [hfound] at hthis
      have hskip : Served headers used (earlier ++ [name]) := by
        refine h.skip ?_
        by_cases hname : name = []
        · exact .inl hname
        · rw [if_neg hname] at hfound
          exact .inr hfound
      cases j with
      | zero => simpa using hthis
      | succ j => simpa using ih hskip j
    | some e =>
      rw [hfound] at hthis
      have hname : name ≠ [] := by
        rintro rfl
        simp at hfound
      rw [if_neg hname] at hfound
      have htake := h.take hfound hname
      cases j with
      | zero => simpa using hthis
      | succ j => simpa using ih htake j

theorem wanted_eq (headers : List StringPair) (h : Bytes) (j : Nat) :
    wanted headers h j =
      ((h.splitOn 58)[j]?.map (takes headers ((h.splitOn 58).take j))).getD [] := by
  have hstart : Served headers [] [] := by
    intro low _
    simp [asked]
  rw [wanted, selectFrom_getElem hstart, List.nil_append]

/-! ## The loop against the reference -/

theorem mem_prefixed {headers : List StringPair} {name : Bytes} {e : Nat} :
    e ∈ prefixed headers name ↔ e < headers.length ∧ startsWith (nameAt headers e) name = true := by
  rw [prefixed, List.mem_filter, List.mem_range]

theorem nameAt_lower (headers : List StringPair) (e : Nat) :
    (nameAt headers e).map tolower = nameAt headers e := by
  rw [nameAt, List.map_map]
  exact List.map_congr_left fun c _ => tolower_tolower c

theorem owed_length (headers : List StringPair) (low : Bytes) :
    (owed headers low).length =
      (List.range headers.length).countP fun e => nameAt headers e = low := by
  rw [owed, ← List.countP_eq_length_filter, (List.reverse_perm _).countP_eq]

/-- A found name takes its one header on both sides. -/
theorem prefixed_eq_takes_of_found {headers : List StringPair} {earlier : List Bytes} {name : Bytes}
    (h : Found headers earlier name) : prefixed headers name = takes headers earlier name := by
  obtain ⟨hne, hnew, i, hi, hname, hone⟩ := h
  have hlow : name.map tolower = name := by rw [← hname, nameAt_lower]
  have hself : startsWith (nameAt headers i) name = true := by
    rw [hname, startsWith_iff]
  have honly : ∀ l : List Nat, l.Nodup → i ∈ l → (∀ e ∈ l, e = i) → l = [i] := by
    intro l hnodup hmem hall
    exact List.perm_singleton.mp ((List.perm_ext_iff_of_nodup hnodup (List.nodup_singleton i)).mpr
      fun e => ⟨fun he => List.mem_singleton.mpr (hall e he),
        fun he => List.mem_singleton.mp he ▸ hmem⟩)
  have hprefixed : prefixed headers name = [i] :=
    honly _ (List.nodup_range.filter _) (mem_prefixed.mpr ⟨hi, hself⟩) fun e he =>
      hone e (mem_prefixed.mp he).1 (mem_prefixed.mp he).2
  have howed : owed headers name = [i] := by
    refine honly _ (owed_nodup _ _) (mem_owed.mpr ⟨hi, hname⟩) fun e he => ?_
    obtain ⟨hlt, heq⟩ := mem_owed.mp he
    exact hone e hlt (by rw [heq, startsWith_iff])
  have hasked : asked earlier name = 0 := by
    rw [asked, List.countP_eq_zero]
    intro n hn
    simpa using hnew n hn
  rw [takes, if_neg hne, hlow, hprefixed, howed, hasked]
  rfl

/-- An absent name takes nothing on both sides. -/
theorem prefixed_eq_takes_of_absent {headers : List StringPair} {earlier : List Bytes}
    {name read : Bytes} (h : Absent headers earlier name read) :
    prefixed headers read = [] ∧ takes headers earlier name = [] := by
  obtain ⟨hnone, hleft⟩ := h
  constructor
  · rw [prefixed, List.filter_eq_nil_iff]
    intro e he
    simp [hnone e (List.mem_range.mp he)]
  · rw [takes]
    split
    · rfl
    · rename_i hne
      have hle := hleft.resolve_left hne
      rw [List.drop_eq_nil_of_le (by rw [owed_length]; exact hle)]
      rfl

/-- Where both sides take one header, its name is in lower case and the only one
with that prefix. -/
theorem found_of_prefixed {headers : List StringPair} {earlier : List Bytes} {name read : Bytes}
    {i : Nat} (hread : read = name ∨ read = name ++ [58]) (hne : name ≠ [])
    (heq : prefixed headers read = [i])
    (hi : ((owed headers (name.map tolower)).drop (asked earlier (name.map tolower))).head? = some i) :
    Found headers earlier name ∧ read = name := by
  obtain ⟨hlt, hname⟩ := mem_owed.mp (List.mem_of_mem_drop (List.mem_of_mem_head? hi))
  have hpre : read <+: name.map tolower := by
    have hmem : i ∈ prefixed headers read := heq ▸ List.mem_singleton_self i
    rw [← hname, ← startsWith_iff]
    exact (mem_prefixed.mp hmem).2
  have hsame : read = name := by
    rcases hread with hsame | hcolon
    · exact hsame
    · have := hpre.length_le
      rw [hcolon, List.length_append, List.length_map, List.length_singleton] at this
      omega
  have hlow : name = name.map tolower :=
    (hsame ▸ hpre).eq_of_length (by rw [List.length_map])
  rw [hsame] at heq
  rw [← hlow] at hname hi
  have hone : ∀ e < headers.length, startsWith (nameAt headers e) name = true → e = i := by
    intro e he hstart
    have hmem : e ∈ prefixed headers name := mem_prefixed.mpr ⟨he, hstart⟩
    rw [heq] at hmem
    exact List.mem_singleton.mp hmem
  refine ⟨⟨hne, ?_, i, hlt, hname, hone⟩, hsame⟩
  -- an earlier name would have left no header
  have howed : (owed headers name).length ≤ 1 := by
    have hsub : owed headers name ⊆ [i] := fun e he =>
      List.mem_singleton.mpr (hone e (mem_owed.mp he).1 (by
        rw [(mem_owed.mp he).2, startsWith_iff]))
    exact (List.subperm_of_subset (owed_nodup headers name) hsub).length_le
  have hpos : asked earlier name < (owed headers name).length := by
    by_contra hle
    rw [List.drop_eq_nil_of_le (by omega)] at hi
    cases hi
  have hasked : asked earlier name = 0 := by omega
  rw [asked, List.countP_eq_zero] at hasked
  intro n hn
  simpa using hasked n hn

/-- **A name takes the same on both sides exactly when it is found or absent.** -/
theorem prefixed_eq_takes_iff {headers : List StringPair} {earlier : List Bytes} {name read : Bytes}
    (hread : read = name ∨ read = name ++ [58]) :
    prefixed headers read = takes headers earlier name ↔
      (Found headers earlier name ∧ read = name) ∨ Absent headers earlier name read := by
  constructor
  · intro heq
    by_cases hnil : prefixed headers read = []
    · right
      constructor
      · intro e he
        have hout : e ∉ prefixed headers read := by simp [hnil]
        rw [mem_prefixed, not_and] at hout
        simpa using hout he
      · by_cases hne : name = []
        · exact .inl hne
        · right
          rw [hnil, takes, if_neg hne] at heq
          have hdrop := List.head?_eq_none_iff.mp (Option.toList_eq_nil_iff.mp heq.symm)
          rw [List.drop_eq_nil_iff, owed_length] at hdrop
          exact hdrop
    · left
      -- one header, under the name in lower case
      have hne : name ≠ [] := by
        rintro rfl
        rw [takes, if_pos rfl] at heq
        exact hnil heq
      rw [takes, if_neg hne] at heq
      obtain ⟨i, hi⟩ : ∃ i, ((owed headers (name.map tolower)).drop
          (asked earlier (name.map tolower))).head? = some i := by
        cases hhead : ((owed headers (name.map tolower)).drop
            (asked earlier (name.map tolower))).head? with
        | none =>
          rw [hhead] at heq
          exact absurd heq hnil
        | some i => exact ⟨i, rfl⟩
      rw [hi, Option.toList_some] at heq
      exact found_of_prefixed hread hne heq hi
  · rintro (⟨hfound, rfl⟩ | habsent)
    · exact prefixed_eq_takes_of_found hfound
    · obtain ⟨hprefixed, htakes⟩ := prefixed_eq_takes_of_absent habsent
      rw [hprefixed, htakes]

/-- Name by name. -/
theorem taken_eq_wanted_iff (headers : List StringPair) (h : Bytes) :
    (∀ j, taken headers h j = wanted headers h j) ↔ NamesSound headers h := by
  have hpair : ∀ {j : Nat} {name read : Bytes}, (h.splitOn 58)[j]? = some name →
      (headerNames [] h)[j]? = some read → taken headers h j = prefixed headers read ∧
        wanted headers h j = takes headers ((h.splitOn 58).take j) name ∧
        (read = name ∨ read = name ++ [58]) := by
    intro j name read hname hread
    obtain ⟨name', hname', hcases⟩ := read_cases hread
    rw [hname] at hname'
    cases hname'
    refine ⟨?_, ?_, hcases⟩
    · rw [taken, hread]
      rfl
    · rw [wanted_eq, hname]
      rfl
  constructor
  · intro hall j name read hname hread
    obtain ⟨htaken, hwanted, hcases⟩ := hpair hname hread
    rw [← prefixed_eq_takes_iff hcases, ← htaken, ← hwanted]
    exact hall j
  · intro hsound j
    cases hread : (headerNames [] h)[j]? with
    | some read =>
      obtain ⟨name, hname, -⟩ := read_cases hread
      obtain ⟨htaken, hwanted, hcases⟩ := hpair hname hread
      rw [htaken, hwanted, prefixed_eq_takes_iff hcases]
      exact hsound j name read hname hread
    | none =>
      -- an empty piece at the end takes nothing
      have hwanted : wanted headers h j = [] := by
        rw [wanted_eq]
        rcases unread_cases hread with hnone | hnil
        · rw [hnone]
          rfl
        · rw [hnil]
          simp [takes]
      rw [hwanted, taken, hread]
      rfl

/-! ## The whole list -/

/-- A list of lists, read by position. -/
theorem flatten_eq_flatMap_range {α : Type*} (ls : List (List α)) {n : Nat} (hn : ls.length ≤ n) :
    ls.flatten = (List.range n).flatMap fun j => (ls[j]?).getD [] := by
  induction ls generalizing n with
  | nil => simp
  | cons l ls ih =>
    obtain ⟨n, rfl⟩ : ∃ m, n = m + 1 := ⟨n - 1, by simp at hn; omega⟩
    rw [List.range_succ_eq_map, List.flatMap_cons, List.flatMap_map, List.flatten_cons,
      ih (n := n) (by simpa using hn)]
    simp

theorem incHeaders_eq (headers : List StringPair) (h : Bytes) :
    incHeaders headers h =
      (List.range ((headerNames [] h).length + (h.splitOn 58).length)).flatMap (taken headers h) := by
  rw [incHeaders, List.flatMap_def, flatten_eq_flatMap_range _ (n :=
    (headerNames [] h).length + (h.splitOn 58).length) (by simp)]
  refine congrArg (List.flatMap · _) (funext fun j => ?_)
  rw [taken, List.getElem?_map]

theorem selectFrom_length (headers : List StringPair) (used : List Nat) (names : List Bytes) :
    (selectFrom headers used names).length = names.length := by
  induction names generalizing used with
  | nil => rfl
  | cons name names ih =>
    rw [selectFrom]
    split <;> simp [ih]

theorem selection_eq (headers : List StringPair) (h : Bytes) :
    selection headers h =
      (List.range ((headerNames [] h).length + (h.splitOn 58).length)).flatMap (wanted headers h) := by
  rw [selection, flatten_eq_flatMap_range _ (n :=
    (headerNames [] h).length + (h.splitOn 58).length) (by rw [selectFrom_length]; omega)]
  rfl

/-- Where each list contains its counterpart, the whole ones are equal only if
all of them are. -/
theorem eq_of_flatMap_range_eq {t w : Nat → List Nat} (hsub : ∀ j, (w j).Sublist (t j)) {n : Nat}
    (h : ((List.range n).flatMap t).length ≤ ((List.range n).flatMap w).length) :
    ∀ j < n, t j = w j := by
  have hle : ∀ n, ((List.range n).flatMap w).length ≤ ((List.range n).flatMap t).length := by
    intro n
    induction n with
    | zero => simp
    | succ n ih =>
      have := (hsub n).length_le
      simp only [List.range_succ, List.flatMap_append, List.flatMap_singleton, List.length_append]
      omega
  induction n with
  | zero => simp
  | succ n ih =>
    have hfront := hle n
    have hlast := (hsub n).length_le
    simp only [List.range_succ, List.flatMap_append, List.flatMap_singleton,
      List.length_append] at h
    intro j hj
    rcases Nat.lt_succ_iff_lt_or_eq.mp hj with hlt | rfl
    · exact ih (by omega) j hlt
    · exact ((hsub j).eq_of_length (by omega)).symm

/-- Where no name is missed, the loop takes at least what the reference
takes. -/
theorem wanted_sublist_taken {headers : List StringPair} {h : Bytes} (hmiss : NoneMissed headers h)
    (j : Nat) : (wanted headers h j).Sublist (taken headers h j) := by
  by_cases hnil : wanted headers h j = []
  · rw [hnil]
    exact List.nil_sublist _
  · cases hname : (h.splitOn 58)[j]? with
    | none =>
      rw [wanted_eq, hname] at hnil
      exact absurd rfl hnil
    | some name =>
      obtain ⟨hlow, hread⟩ := hmiss j name hname hnil
      have htakes : wanted headers h j = takes headers ((h.splitOn 58).take j) name := by
        rw [wanted_eq, hname]
        rfl
      have hne : name ≠ [] := by
        rintro rfl
        exact hnil (by rw [htakes, takes, if_pos rfl])
      rw [htakes, takes, if_neg hne, hlow, taken, hread]
      cases hhead : ((owed headers name).drop (asked ((h.splitOn 58).take j) name)).head? with
      | none => exact List.nil_sublist _
      | some e =>
        obtain ⟨hlt, heq⟩ := mem_owed.mp (List.mem_of_mem_drop (List.mem_of_mem_head? hhead))
        refine List.singleton_sublist.mpr (mem_prefixed.mpr ⟨hlt, ?_⟩)
        rw [heq, startsWith_iff]

/-- **The loop selects the headers of the standard exactly when every name in
`h=` is found or absent**, and there are slots for them. Name by name this is an
equivalence. The condition on the names is enough for the lists to be equal,
and it is necessary as well unless a name is missed: only then another name can
make up for the difference. -/
theorem selects_iff (headers : List StringPair) (h : Bytes) :
    (Selects headers h ↔ NamesSound headers h ∧ (selection headers h).length ≤ incHeadersMax) ∧
      (NamesSound headers h → incHeaders headers h = selection headers h) ∧
      (NoneMissed headers h → incHeaders headers h = selection headers h →
        NamesSound headers h) := by
  have hlists : NamesSound headers h → incHeaders headers h = selection headers h := by
    intro hsound
    rw [incHeaders_eq, selection_eq]
    exact congrArg (List.flatMap · _) (funext ((taken_eq_wanted_iff headers h).mpr hsound))
  refine ⟨?_, hlists, ?_⟩
  · rw [Selects, taken_eq_wanted_iff]
    constructor
    · rintro ⟨hsize, hsound⟩
      exact ⟨hsound, hlists hsound ▸ hsize⟩
    · rintro ⟨hsound, hsize⟩
      exact ⟨hlists hsound ▸ hsize, hsound⟩
  · intro hmiss heq
    rw [← taken_eq_wanted_iff]
    rw [incHeaders_eq, selection_eq] at heq
    have hall := eq_of_flatMap_range_eq (wanted_sublist_taken hmiss) (le_of_eq (congrArg _ heq))
    intro j
    by_cases hj : j < (headerNames [] h).length + (h.splitOn 58).length
    · exact hall j hj
    · rw [wanted_eq, taken, List.getElem?_eq_none (by omega), List.getElem?_eq_none (by omega)]
      rfl

/-- A name with a capital letter takes no header. -/
theorem capital_name_selects_none :
    ¬∀ (headers : List StringPair) (h : Bytes), incHeaders headers h = selection headers h := by
  intro hall
  have := hall [⟨bytes "From", bytes "x"⟩] (bytes "From")
  exact absurd this (by decide)

end ComfirmDmarc.Dkim
