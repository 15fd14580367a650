import ComfirmDmarc.Lib.Json

/-!
# JSON texts without escaped quotes

Where no escape of a text stands for a quote, nothing that is read from it has
one, at whatever place a string of it begins.
-/

namespace JsonText

open CMemory

/-- Each backslash starts an escape, and no escape stands for a quote. -/
inductive NoEscapedQuote : Bytes → Prop
  | nil : NoEscapedQuote []
  | byte {c : UInt8} {s : Bytes} : c ≠ 92 → NoEscapedQuote s → NoEscapedQuote (c :: s)
  | escape {e : UInt8} {s : Bytes} : e ≠ 34 → e ≠ 117 → NoEscapedQuote s →
      NoEscapedQuote (92 :: e :: s)

namespace NoEscapedQuote

theorem append {s t : Bytes} (hs : NoEscapedQuote s) (ht : NoEscapedQuote t) :
    NoEscapedQuote (s ++ t) := by
  induction hs with
  | nil => exact ht
  | byte hc _ ih => exact .byte hc ih
  | escape he hu _ ih => exact .escape he hu ih

theorem of_no_slash {s : Bytes} (h : 92 ∉ s) : NoEscapedQuote s := by
  induction s with
  | nil => exact .nil
  | cons c s ih =>
    exact .byte (fun hc => h (hc ▸ List.mem_cons_self)) (ih fun hs => h (List.mem_cons_of_mem _ hs))

theorem tail {c : UInt8} {s : Bytes} (hc : c ≠ 92) (h : NoEscapedQuote (c :: s)) :
    NoEscapedQuote s := by
  cases h with
  | byte _ hs => exact hs
  | escape _ _ _ => exact absurd rfl hc

theorem of_append {s t : Bytes} (hs : 92 ∉ s) (h : NoEscapedQuote (s ++ t)) : NoEscapedQuote t := by
  induction s with
  | nil => exact h
  | cons c s ih =>
    exact ih (fun hc => hs (List.mem_cons_of_mem _ hc))
      (tail (fun hc => hs (hc ▸ List.mem_cons_self)) h)

theorem dropWhile {p : UInt8 → Bool} {s : Bytes} (hp : p 92 = false) (h : NoEscapedQuote s) :
    NoEscapedQuote (s.dropWhile p) := by
  refine of_append (s := s.takeWhile p) (fun hmem => ?_) ?_
  · rw [List.mem_takeWhile_imp hmem] at hp
    cases hp
  · rw [List.takeWhile_append_dropWhile]
    exact h

theorem skipWs {s : Bytes} (h : NoEscapedQuote s) : NoEscapedQuote (skipWs s) := h.dropWhile (by decide)

/-- **A string that is read has no quote.** -/
theorem scanString {s k r : Bytes} (h : NoEscapedQuote s) (hs : scanString s = some (k, r)) :
    34 ∉ k ∧ NoEscapedQuote r := by
  induction h generalizing k with
  | nil => cases hs
  | @byte c s hc h ih =>
    by_cases hquote : c = 34
    · rw [hquote, scanString_quote] at hs
      cases hs
      exact ⟨List.not_mem_nil, h⟩
    · by_cases hctl : c < 32
      · rw [JsonText.scanString.eq_def] at hs
        simp [hquote, hc, hctl] at hs
      · rw [scanString_plain hquote hc hctl, Option.map_eq_some_iff] at hs
        obtain ⟨⟨k', r'⟩, hs', heq⟩ := hs
        cases heq
        obtain ⟨hk, hr⟩ := ih hs'
        exact ⟨List.not_mem_cons_of_ne_of_not_mem (Ne.symm hquote) hk, hr⟩
  | @escape e s he hu h ih =>
    cases hx : unescape e with
    | none =>
      rw [JsonText.scanString.eq_def] at hs
      simp [hu, hx] at hs
    | some x =>
      have hquote : 34 ≠ x := by
        rintro rfl
        exact he (unescape_quote hx)
      rw [scanString_escape hu hx, Option.map_eq_some_iff] at hs
      obtain ⟨⟨k', r'⟩, hs', heq⟩ := hs
      cases heq
      obtain ⟨hk, hr⟩ := ih hs'
      exact ⟨List.not_mem_cons_of_ne_of_not_mem hquote hk, hr⟩

theorem scanDigits {s t r : Bytes} (h : NoEscapedQuote s) (hs : scanDigits s = some (t, r)) :
    NoEscapedQuote r := by
  rw [JsonText.scanDigits] at hs
  split at hs
  · cases hs
  · cases hs
    exact h.dropWhile (by decide)

theorem of_head {s : Bytes} {c : UInt8} (hc : c ≠ 92) (hs : s.head? = some c)
    (h : NoEscapedQuote s) : NoEscapedQuote s.tail := by
  cases s with
  | nil => cases hs
  | cons d s =>
    cases hs
    exact h.tail hc

theorem scanSign {signs s : Bytes} (hsigns : 92 ∉ signs) (h : NoEscapedQuote s) :
    NoEscapedQuote (scanSign signs s).2 := by
  cases s with
  | nil => exact h
  | cons c s =>
    rw [JsonText.scanSign]
    split
    · next hc => exact h.tail fun heq => hsigns (heq ▸ hc)
    · exact h

theorem scanNumber {s t r : Bytes} (h : NoEscapedQuote s) (hs : scanNumber s = some (t, r)) :
    NoEscapedQuote r := by
  simp only [JsonText.scanNumber, Option.bind_eq_bind, Option.bind_eq_some_iff, Option.pure_def,
    Option.some.injEq, Prod.mk.injEq] at hs
  obtain ⟨int, hint, fraction, hfraction, exponent, hexponent, -, rfl⟩ := hs
  -- sign, integer, fraction and exponent in turn, none has a backslash
  have hsign : NoEscapedQuote (JsonText.scanSign [45] s).2 := h.scanSign (by decide)
  have hint' : NoEscapedQuote int.2 := by
    rw [scanInt] at hint
    split at hint
    · next hzero =>
      cases hint
      exact hsign.of_head (by decide) hzero
    · exact hsign.scanDigits hint
  have hfraction' : NoEscapedQuote fraction.2 := by
    rw [scanFraction] at hfraction
    split at hfraction
    · next hdot =>
      rw [Option.map_eq_some_iff] at hfraction
      obtain ⟨p, hp, rfl⟩ := hfraction
      exact (hint'.of_head (by decide) hdot).scanDigits hp
    · cases hfraction
      exact hint'
  cases hrest : fraction.2 with
  | nil =>
    rw [hrest] at hexponent
    cases hexponent
    exact .nil
  | cons c rest =>
    rw [hrest] at hexponent hfraction'
    simp only [scanExponent] at hexponent
    split at hexponent
    · next hc =>
      rw [Option.map_eq_some_iff] at hexponent
      obtain ⟨p, hp, rfl⟩ := hexponent
      have hslash : c ≠ 92 := by
        rcases hc with rfl | rfl
        · decide
        · decide
      exact ((hfraction'.tail hslash).scanSign (by decide)).scanDigits hp
    · cases hexponent
      exact hfraction'

theorem literal {s : Bytes} {lit : Bytes} (hlit : 92 ∉ lit) (h : NoEscapedQuote s)
    (hs : startsWith s lit = true) : NoEscapedQuote (s.drop lit.length) := by
  obtain ⟨t, rfl⟩ := startsWith_iff.mp hs
  rw [List.drop_left]
  exact h.of_append hlit

end NoEscapedQuote

/-- No string that a decoder finds has a quote. -/
def QuoteFreeStrings (v : Json) : Prop := ∀ path s, lookup path v = some (.string s) → 34 ∉ s

theorem lookup_scalar {path : List Bytes} {v : Json} {s : Bytes} (hv : ∀ ms, v ≠ .object ms)
    (h : lookup path v = some (.string s)) : v = .string s := by
  cases path with
  | nil => exact Option.some.inj h
  | cons k ks =>
    cases v with
    | object ms => exact absurd rfl (hv ms)
    | null => cases h
    | bool b => cases h
    | number text => cases h
    | string s => cases h
    | array items => cases h

theorem quoteFreeStrings_other {v : Json} (hobject : ∀ ms, v ≠ .object ms)
    (hstring : ∀ s, v ≠ .string s) : QuoteFreeStrings v :=
  fun _ s h => absurd (lookup_scalar hobject h) (hstring s)

theorem scanScalar_quoteFree {s r : Bytes} {v : Json} (h : NoEscapedQuote s)
    (hs : scanScalar s = some (v, r)) : QuoteFreeStrings v ∧ NoEscapedQuote r := by
  rw [scanScalar] at hs
  split at hs
  · next hquote =>
    rw [Option.map_eq_some_iff] at hs
    obtain ⟨⟨k, r'⟩, hk, heq⟩ := hs
    cases heq
    -- a string; the literals and numbers below are none
    obtain ⟨hfree, hr⟩ := (h.of_head (by decide) hquote).scanString hk
    refine ⟨fun path t ht => ?_, hr⟩
    have := lookup_scalar (fun ms hms => by cases hms) ht
    cases this
    exact hfree
  · split at hs
    · next hlit =>
      cases hs
      exact ⟨quoteFreeStrings_other (fun ms hms => by cases hms) (fun t ht => by cases ht),
        h.literal (by simp [bytes]) hlit⟩
    · split at hs
      · next hlit =>
        cases hs
        exact ⟨quoteFreeStrings_other (fun ms hms => by cases hms) (fun t ht => by cases ht),
          h.literal (by simp [bytes]) hlit⟩
      · split at hs
        · next hlit =>
          cases hs
          exact ⟨quoteFreeStrings_other (fun ms hms => by cases hms) (fun t ht => by cases ht),
            h.literal (by simp [bytes]) hlit⟩
        · rw [Option.map_eq_some_iff] at hs
          obtain ⟨⟨k, r'⟩, hk, heq⟩ := hs
          cases heq
          exact ⟨quoteFreeStrings_other (fun ms hms => by cases hms) (fun t ht => by cases ht),
            h.scanNumber hk⟩

theorem quoteFreeStrings_array (items : List Json) : QuoteFreeStrings (.array items) :=
  quoteFreeStrings_other (fun ms hms => by cases hms) (fun t ht => by cases ht)

theorem quoteFreeStrings_empty : QuoteFreeStrings (.object []) := by
  intro path s h
  cases path with
  | nil => cases h
  | cons k ks => cases h

theorem quoteFreeStrings_cons {k : Bytes} {x : Json} {ms : List (Bytes × Json)}
    (hx : QuoteFreeStrings x) (hms : QuoteFreeStrings (.object ms)) :
    QuoteFreeStrings (.object ((k, x) :: ms)) := by
  intro path s h
  cases path with
  | nil => cases h
  | cons k' ks =>
    rw [lookup, lastMember] at h
    cases hlast : lastMember k' ms with
    | some y =>
      rw [hlast] at h
      -- a later member of the name counts
      refine hms (k' :: ks) s ?_
      rw [lookup, hlast]
      exact h
    | none =>
      rw [hlast, Option.none_or] at h
      split at h
      · exact hx ks s h
      · cases h

theorem NoEscapedQuote.next {c : UInt8} {s t : Bytes} (hc : c ≠ 92) (h : NoEscapedQuote s)
    (hs : JsonText.skipWs s = c :: t) : NoEscapedQuote t := by
  have hskip := h.skipWs
  rw [hs] at hskip
  exact hskip.tail hc

/-- **Where no escape stands for a quote, no string that is read has one.** -/
theorem Parse.quoteFree {mode : Mode} {s r : Bytes} {v : Json} (hp : Parse mode s v r)
    (h : NoEscapedQuote s) : QuoteFreeStrings v ∧ NoEscapedQuote r := by
  induction hp with
  | scalar hs => exact scanScalar_quoteFree h.skipWs hs
  | emptyArray hs ht =>
    exact ⟨quoteFreeStrings_array [], (h.next (by decide) hs).next (by decide) ht⟩
  | array hs _ ih => exact ih (h.next (by decide) hs)
  | emptyObject hs ht =>
    exact ⟨quoteFreeStrings_empty, (h.next (by decide) hs).next (by decide) ht⟩
  | object hs _ ih => exact ih (h.next (by decide) hs)
  | lastItem _ ht ih => exact ⟨quoteFreeStrings_array _, (ih h).2.next (by decide) ht⟩
  | item _ ht _ ihv ihi =>
    exact ⟨quoteFreeStrings_array _, (ihi ((ihv h).2.next (by decide) ht)).2⟩
  | lastMember hs hk hu _ hw ih =>
    obtain ⟨-, hname⟩ := (h.next (by decide) hs).scanString hk
    obtain ⟨hx, hrest⟩ := ih (hname.next (by decide) hu)
    exact ⟨quoteFreeStrings_cons hx quoteFreeStrings_empty, hrest.next (by decide) hw⟩
  | member hs hk hu _ hw _ ihv ihm =>
    obtain ⟨-, hname⟩ := (h.next (by decide) hs).scanString hk
    obtain ⟨hx, hrest⟩ := ihv (hname.next (by decide) hu)
    obtain ⟨hms, hend⟩ := ihm (hrest.next (by decide) hw)
    exact ⟨quoteFreeStrings_cons hx hms, hend⟩

end JsonText
