import ComfirmDmarc.Server.ClientSession
import ComfirmDmarc.Dkim.QueuedMail

/-!
# Server -- the strings of a mail that carries a message

A message can be read in one way only, so a mail that carries it holds its
fields, in their order, and its body: what `mailhandler.c` finds in the mail is
what the client has written.
-/

namespace ComfirmDmarc.Server

open CMemory

/-! ## A message is read in one way -/

/-- The text goes on behind a CRLF with a blank. -/
theorem head_of_fold {blank : UInt8} {rest raw more : Bytes} (hblank : blank = 9 ∨ blank = 32)
    (hrest : ∀ c ∈ rest.head?, c ≠ 9 ∧ c ≠ 32) :
    13 :: 10 :: rest ≠ 13 :: 10 :: blank :: raw ++ more := by
  intro heq
  have hhead : rest = blank :: (raw ++ more) := (List.cons.inj (List.cons.inj heq).2).2
  have hno := hrest blank (by rw [hhead]; rfl)
  rcases hblank with rfl | rfl
  · exact hno.1 rfl
  · exact hno.2 rfl

/-- The end of a value is the first CRLF without a blank behind it. -/
theorem JoinsFolds.unique {raw v raw' v' rest rest' : Bytes} (h : JoinsFolds raw v)
    (h' : JoinsFolds raw' v') (hrest : ∀ c ∈ rest.head?, c ≠ 9 ∧ c ≠ 32)
    (hrest' : ∀ c ∈ rest'.head?, c ≠ 9 ∧ c ≠ 32)
    (heq : raw ++ 13 :: 10 :: rest = raw' ++ 13 :: 10 :: rest') : v = v' ∧ rest = rest' := by
  induction h generalizing raw' v' with
  | nil =>
    cases h' with
    | nil => exact ⟨rfl, by simpa using heq⟩
    | char _ hcr _ => exact absurd (List.cons.inj heq).1.symm hcr
    | fold hblank _ => exact absurd heq (head_of_fold hblank hrest)
  | @char c raw v _ hcr hraw ih =>
    cases h' with
    | nil => exact absurd (List.cons.inj heq).1 hcr
    | char _ _ hraw' =>
      obtain ⟨rfl, htail⟩ := List.cons.inj heq
      obtain ⟨rfl, hrests⟩ := ih hraw' htail
      exact ⟨rfl, hrests⟩
    | fold _ _ => exact absurd (List.cons.inj heq).1 hcr
  | @fold blank raw v hblank hraw ih =>
    cases h' with
    | nil => exact absurd heq.symm (head_of_fold hblank hrest')
    | char _ hcr _ => exact absurd (List.cons.inj heq).1.symm hcr
    | fold _ hraw' =>
      simp only [List.cons_append, List.cons.injEq, true_and] at heq
      obtain ⟨rfl, htail⟩ := heq
      obtain ⟨rfl, hrests⟩ := ih hraw' htail
      exact ⟨rfl, hrests⟩

/-- The name of a field ends at its first colon. -/
theorem IsName.unique {name name' rest rest' : Bytes} (h : IsName name) (h' : IsName name')
    (heq : name ++ 58 :: rest = name' ++ 58 :: rest') : name = name' ∧ rest = rest' := by
  have hcut : ∀ {n : Bytes}, IsName n → ∀ r, (n ++ 58 :: r).takeWhile (· ≠ 58) = n := by
    intro n hn r
    rw [List.takeWhile_append_of_pos fun c hc => by simpa using (hn.bytes c hc).2.2.2]
    simp
  have hname : name = name' := by rw [← hcut h rest, heq, hcut h']
  subst hname
  exact ⟨rfl, (List.cons.inj (List.append_cancel_left heq)).2⟩

/-- What follows a field does not start with a blank. -/
theorem renderMessage_head {fields : List Field} (hfields : ∀ f ∈ fields, f.Sent)
    (body : Bytes) : ∀ c ∈ (renderMessage fields body).head?, c ≠ 9 ∧ c ≠ 32 := by
  cases fields with
  | nil =>
    intro c hc
    obtain rfl : 13 = c := by simpa [renderMessage] using hc
    decide
  | cons f fields =>
    obtain ⟨c, rest, hline, h9, -, h32⟩ :=
      (hfields f List.mem_cons_self).name.line_head (f.sep :: f.raw ++ [13, 10])
    intro d hd
    have hhead : (renderMessage (f :: fields) body).head? = some c := by
      rw [renderMessage, List.flatMap_cons, Field.render, List.append_assoc f.name, List.cons_append,
        hline]
      rfl
    obtain rfl : c = d := by simpa [hhead] using hd
    exact ⟨h9, h32⟩

/-- **A message determines its fields and its body.** -/
theorem renderMessage_unique {fields fields' : List Field} {body body' : Bytes}
    (hfields : ∀ f ∈ fields, f.Sent) (hfields' : ∀ f ∈ fields', f.Sent)
    (heq : renderMessage fields body = renderMessage fields' body') :
    (fields.map fun f => (f.name, f.value)) = (fields'.map fun f => (f.name, f.value)) ∧
      body = body' := by
  have hcons : ∀ (f : Field) (fs : List Field) (b : Bytes), renderMessage (f :: fs) b =
      f.name ++ 58 :: (f.sep :: (f.raw ++ 13 :: 10 :: renderMessage fs b)) := by
    intro f fs b
    simp [renderMessage, Field.render]
  have hno : ∀ {f : Field} (fs : List Field) (b more : Bytes), f.Sent →
      renderMessage (f :: fs) b ≠ 13 :: more := by
    intro f fs b more hf hcr
    obtain ⟨c, rest, hline, -, h13, -⟩ :=
      hf.name.line_head (f.sep :: (f.raw ++ 13 :: 10 :: renderMessage fs b))
    rw [hcons, hline] at hcr
    exact h13 (List.cons.inj hcr).1
  induction fields generalizing fields' with
  | nil =>
    cases fields' with
    | nil => exact ⟨rfl, by simpa [renderMessage] using heq⟩
    | cons f fs => exact absurd heq.symm (hno fs body' _ (hfields' f List.mem_cons_self))
  | cons f fields ih =>
    cases fields' with
    | nil => exact absurd heq (hno fields body _ (hfields f List.mem_cons_self))
    | cons f' fields' =>
      obtain ⟨hf, hfields⟩ := List.forall_mem_cons.mp hfields
      obtain ⟨hf', hfields'⟩ := List.forall_mem_cons.mp hfields'
      rw [hcons, hcons] at heq
      obtain ⟨hname, hrest⟩ := hf.name.unique hf'.name heq
      obtain ⟨hvalue, hmore⟩ := hf.value.unique hf'.value (renderMessage_head hfields body)
        (renderMessage_head hfields' body') (List.cons.inj hrest).2
      obtain ⟨hmap, hbody⟩ := ih hfields hfields' hmore
      exact ⟨by rw [List.map_cons, List.map_cons, hmap, hname, hvalue], hbody⟩

/-! ## What the mail handler finds -/

/-- **A mail that carries a message holds its fields and its body.** -/
theorem Carries.strings {fields : List Field} {body : Bytes} {m : Mail}
    (hfields : ∀ f ∈ fields, f.Sent) (h : Carries (renderMessage fields body) m) :
    m.headerCount = fields.length ∧
      Dkim.mailHeaders m = fields.map (fun f => ⟨f.name, f.value⟩) ∧ m.bodyStr = str body := by
  obtain ⟨fields', body', heq, hwf, hcount, hholds, hbody⟩ := h
  obtain ⟨hmap, rfl⟩ := renderMessage_unique hfields hwf heq
  have hlen : fields.length = fields'.length := by simpa using congrArg List.length hmap
  refine ⟨by rw [hcount, hlen], ?_, hbody⟩
  have hpairs : fields.map (fun f => (⟨f.name, f.value⟩ : Dkim.StringPair)) =
      fields'.map fun f => ⟨f.name, f.value⟩ := by
    have := congrArg (List.map fun p : Bytes × Bytes => (⟨p.1, p.2⟩ : Dkim.StringPair)) hmap
    simpa [List.map_map, Function.comp_def] using this
  rw [hpairs, Dkim.mailHeaders, hcount]
  have hfit : fields'.length ≤ headerMaxLen := by
    by_contra hlong
    obtain ⟨hlt, -⟩ := hholds headerMaxLen (by omega)
    omega
  refine List.ext_getElem (by simpa using Nat.min_eq_left hfit) fun j hj hj' => ?_
  rw [List.length_map] at hj'
  obtain ⟨hlt, hkey, hvalue⟩ := hholds j hj'
  simp [hkey, hvalue]

end ComfirmDmarc.Server
