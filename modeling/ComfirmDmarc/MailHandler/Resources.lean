import ComfirmDmarc.MailHandler.Iteration
import ComfirmDmarc.Lib.Lifetimes
import Mathlib.Data.Finset.Basic

/-!
# MailHandler -- the resources of the loop

`main` makes one libcurl handle in front of the loop, and `post_data` cleans it
up every time it is called. The blocks of an iteration are given back in it.
-/

namespace ComfirmDmarc.MailHandler

open CMemory Lifetimes

/-! ## What a run does with its resources -/

/-- The handle, or the block behind one of the variables. -/
inductive Resource
  | curl
  | block (b : Block)
  deriving DecidableEq

def Event.op : Event → Option (Op Resource)
  | .malloc b => some (.acquire (.block b))
  | .access b => some (.use (.block b))
  | .free b => some (.release (.block b))
  | .curl => some (.use .curl)
  | .cleanup => some (.release .curl)
  | .compare _ | .unzip _ _ | .parseXml _ | .postData _ | .report _ => none

def Part.ops (p : Part) : List (Op Resource) := p.events.filterMap Event.op

/-- `curl_easy_init`, and then the loop. -/
def runOps (c : Callees) (growths : Bytes → Nat) (mails : List (Option Mail × Posted)) :
    List (Op Resource) :=
  .acquire .curl :: (turns c growths mails).flatMap fun t => t.part.ops

/-- **The lifecycle of the handle and of the blocks**: nothing is used or
released when it is not in use, and the handle is released at most once. -/
structure Lifecycle (ops : List (Op Resource)) : Prop where
  disciplined : Disciplined ops
  once : ops.count (.release .curl) ≤ 1

/-- `post_data` is called for the mail. -/
def Turn.Posts (c : Callees) (t : Turn) : Prop := ∃ m ∈ t.found, Converts c m

/-! ## One iteration -/

@[simp] theorem Part.ops_does (es : List Event) : (Part.does es).ops = es.filterMap Event.op := rfl

@[simp] theorem Part.ops_dies (es : List Event) : (Part.dies es).ops = es.filterMap Event.op := rfl

theorem Part.ops_andThen (p q : Part) :
    (p.andThen q).ops = if p.alive then p.ops ++ q.ops else p.ops := by
  rw [Part.andThen]
  split
  · exact List.filterMap_append
  · rfl

/-- Between two iterations no block is in use. -/
def NoBlocks (live : Finset Resource) : Prop := ∀ b, .block b ∉ live

/-- **The text grows in one block after the other.** -/
theorem growText_ops {live : Finset Resource} (hjson : .block .json ∈ live)
    (htext : ∀ k, .block (.text k) ∉ live) (k : Nat) :
    RunsFrom live ((growText k).filterMap Event.op) ∧
      liveAfter live ((growText k).filterMap Event.op) = insert (.block (.text k)) live := by
  induction k with
  | zero => simp [growText, Event.op, RunsFrom, Op.Allowed, Op.apply, hjson]
  | succ k ih =>
    obtain ⟨hruns, hafter⟩ := ih
    rw [growText, List.filterMap_append, runsFrom_append, liveAfter_append, hafter]
    refine ⟨⟨hruns, ?_⟩, ?_⟩
    · simp [Event.op, RunsFrom, Op.Allowed, Op.apply, hjson]
    · -- the old block is the one that is freed
      have hfree : (insert (Resource.block (.text k)) (insert (Resource.block (.text (k + 1))) live)).erase
          (.block (.text k)) = insert (Resource.block (.text (k + 1))) live :=
        Finset.erase_insert (by simp [htext k])
      simpa [Event.op, Op.apply, Finset.insert_comm (Resource.block (.text (k + 1)))] using hfree

/-- **What a part needs and what it leaves**: from `live` it runs exactly under
the condition, and then `after` is in use when the process is still there. -/
structure Part.Spec (p : Part) (live after : Finset Resource) (needs : Prop) : Prop where
  runs : RunsFrom live p.ops ↔ needs
  leaves : p.alive = true → liveAfter live p.ops = after

@[simp] theorem Part.does_andThen_does (es es' : List Event) :
    (Part.does es).andThen (.does es') = .does (es ++ es') := rfl

theorem Part.Spec.does {live after : Finset Resource} {es : List Event}
    (hruns : RunsFrom live (es.filterMap Event.op))
    (hafter : liveAfter live (es.filterMap Event.op) = after) : (Part.does es).Spec live after True :=
  ⟨iff_true_intro hruns, fun _ => hafter⟩

/-- Events in front of a part. -/
theorem Part.Spec.first {q : Part} {live mid after : Finset Resource} {needs : Prop}
    (hq : q.Spec mid after needs) {es : List Event} (hruns : RunsFrom live (es.filterMap Event.op))
    (hmid : liveAfter live (es.filterMap Event.op) = mid) :
    ((Part.does es).andThen q).Spec live after needs where
  runs := by
    rw [Part.ops_andThen, if_pos (Part.does_alive es), runsFrom_append, Part.ops_does, hmid, hq.runs]
    exact and_iff_right hruns
  leaves := by
    intro halive
    rw [Part.ops_andThen, if_pos (Part.does_alive es), liveAfter_append, Part.ops_does, hmid]
    exact hq.leaves (by simpa using halive)

/-- Events behind a part. -/
theorem Part.Spec.last {p : Part} {live mid after : Finset Resource} {needs : Prop}
    (hp : p.Spec live mid needs) {es : List Event} (hruns : RunsFrom mid (es.filterMap Event.op))
    (hafter : liveAfter mid (es.filterMap Event.op) = after) :
    (p.andThen (.does es)).Spec live after needs where
  runs := by
    rw [Part.ops_andThen]
    split
    · next halive =>
      rw [runsFrom_append, hp.leaves halive, Part.ops_does, hp.runs]
      exact and_iff_left hruns
    · exact hp.runs
  leaves := by
    intro halive
    have halive : p.alive = true := by simpa using halive
    rw [Part.ops_andThen, if_pos halive, liveAfter_append, hp.leaves halive]
    exact hafter

/-- The process is gone behind the events. -/
theorem Part.Spec.dies {live after : Finset Resource} {es : List Event}
    (hruns : RunsFrom live (es.filterMap Event.op)) :
    ((Part.does es).andThen (.dies [])).Spec live after True where
  runs := by
    rw [Part.ops_andThen, if_pos (Part.does_alive es)]
    simpa using hruns
  leaves := by simp

/-- **`post_data` needs the handle, and cleans it up.** -/
theorem postData_spec (posted : Posted) (json : Bytes) {k : Nat} {live : Finset Resource}
    (hjson : .block .json ∈ live) (htext : .block (.text k) ∈ live) :
    (postData posted json k).Spec live (live.erase .curl) (.curl ∈ live) := by
  cases posted with
  | ok =>
    refine ⟨?_, fun _ => rfl⟩
    simp [postData, List.filterMap_cons, Event.op, RunsFrom, Op.Allowed, Op.apply, hjson, htext]
  | failed =>
    refine ⟨?_, fun _ => rfl⟩
    simp [postData, List.filterMap_cons, Event.op, RunsFrom, Op.Allowed, Op.apply, hjson, htext]
  | crashed =>
    refine ⟨?_, fun halive => by cases halive⟩
    simp [postData, List.filterMap_cons, Event.op, RunsFrom, Op.Allowed, Op.apply, hjson, htext]

section Stages

variable {c : Callees} {growths : Bytes → Nat} {posted : Posted} {live : Finset Resource}

theorem convert_spec {xml : Bytes} (hlive : ∀ b, .block b ∈ live → b = .xml ∨ b = .zipdata ∨ b = .message)
    (hxml : .block .xml ∈ live) :
    ((∀ j, c.parseXml xml ≠ .got j) → (convert c growths posted xml).Spec live live True) ∧
      ∀ j, c.parseXml xml = .got j →
        (convert c growths posted xml).Spec live (live.erase .curl) (.curl ∈ live) := by
  have hjson : .block .json ∉ live := fun h => by simpa using hlive _ h
  have htext : ∀ k, .block (.text k) ∉ live := fun k h => by simpa using hlive _ h
  constructor
  · intro hnot
    simp only [convert]
    cases hparse : c.parseXml xml with
    | got j => exact absurd hparse (hnot j)
    | crash =>
      exact .dies (by simp [List.filterMap_cons, Event.op, RunsFrom, Op.Allowed, Op.apply, hxml])
    | null =>
      refine .does ?_ ?_
      · simp [List.filterMap_cons, Event.op, RunsFrom, Op.Allowed, Op.apply, hxml]
      · simp [List.filterMap_cons, Event.op, Op.apply, hjson]
  · intro j hgot
    simp only [convert, hgot, Part.does_andThen_does]
    -- the buffer and its last block are in use when the text is posted
    generalize htaken : insert (.block (.text (growths xml))) (insert (.block .json) live) = taken
    have hpost : (postData posted j (growths xml)).Spec taken (taken.erase .curl) (.curl ∈ live) := by
      have hspec := @postData_spec posted j (growths xml) taken (by simp [← htaken]) (by simp [← htaken])
      simpa [← htaken] using hspec
    obtain ⟨hruns, hafter⟩ := @growText_ops (insert (.block .json) live) (by simp)
      (by simpa using htext) (growths xml)
    rw [htaken] at hafter
    refine (hpost.first ?_ ?_).last ?_ ?_
    · simp [List.filterMap_cons, Event.op, RunsFrom, Op.Allowed, Op.apply, hxml, runsFrom_append,
        hruns, hafter, ← htaken]
    · simp [List.filterMap_cons, Event.op, Op.apply, liveAfter_append, hafter]
    · simp [Event.op, RunsFrom, Op.Allowed, Op.apply, ← htaken]
    · have hback : ((taken.erase .curl).erase (.block (.text (growths xml)))).erase (.block .json) =
          live.erase .curl := by
        ext r
        have hr : r ∈ live → r ≠ .block .json ∧ r ≠ .block (.text (growths xml)) := by
          intro hr
          constructor
          · rintro rfl
            exact hjson hr
          · rintro rfl
            exact htext _ hr
        simp only [← htaken, Finset.mem_erase, Finset.mem_insert]
        tauto
      simpa [Event.op, Op.apply] using hback

theorem extract_spec {zipdata : Bytes} {len : Int}
    (hlive : ∀ b, .block b ∈ live → b = .zipdata ∨ b = .message) (hzip : .block .zipdata ∈ live) :
    ((¬∃ x j, c.unzip zipdata len = .got x ∧ c.parseXml x = .got j) →
        (extract c growths posted zipdata len).Spec live (live.erase (.block .zipdata)) True) ∧
      ∀ x j, c.unzip zipdata len = .got x → c.parseXml x = .got j →
        (extract c growths posted zipdata len).Spec live
          ((live.erase .curl).erase (.block .zipdata)) (.curl ∈ live) := by
  have hxml : .block .xml ∉ live := fun h => by simpa using hlive _ h
  have hsmall : ((if len < 35 then [Event.report .tooSmall] else []) ++
      [Event.unzip zipdata len, Event.access .zipdata]).filterMap Event.op = [.use (.block .zipdata)] := by
    split
    all_goals rfl
  have hinner : ∀ b, .block b ∈ insert (.block .xml) live → b = .xml ∨ b = .zipdata ∨ b = .message := by
    intro b hb
    rcases Finset.mem_insert.mp hb with hb | hb
    · exact .inl (by simpa using hb)
    · exact .inr (hlive b hb)
  constructor
  · intro hnot
    cases hunzip : c.unzip zipdata len with
    | crash =>
      simp only [extract, hunzip]
      exact .dies (by rw [hsmall]; simp [RunsFrom, Op.Allowed, hzip])
    | null =>
      simp only [extract, hunzip, Part.does_andThen_does]
      refine .does ?_ ?_
      · rw [List.filterMap_append, hsmall]
        simp [List.filterMap_cons, Event.op, RunsFrom, Op.Allowed, Op.apply, hzip]
      · rw [List.filterMap_append, hsmall]
        simp [List.filterMap_cons, Event.op, Op.apply]
    | got x =>
      have hconvert := (@convert_spec c growths posted (insert (.block .xml) live) x hinner (by simp)).1
        fun j hj => hnot ⟨x, j, hunzip, hj⟩
      simp only [extract, hunzip, Part.does_andThen_does]
      refine (hconvert.first ?_ ?_).last ?_ ?_
      · rw [List.filterMap_append, hsmall]
        simp [Event.op, RunsFrom, Op.Allowed, Op.apply, hzip]
      · rw [List.filterMap_append, hsmall]
        simp [Event.op, Op.apply]
      · simp [Event.op, RunsFrom, Op.Allowed, Op.apply, hzip]
      · simp [Event.op, Op.apply, Finset.erase_insert hxml]
  · intro x j hunzip hparse
    have hconvert := (@convert_spec c growths posted (insert (.block .xml) live) x hinner (by simp)).2 j hparse
    have hneeds : Resource.curl ∈ insert (.block .xml) live ↔ Resource.curl ∈ live := by simp
    rw [hneeds] at hconvert
    simp only [extract, hunzip, Part.does_andThen_does]
    refine (hconvert.first ?_ ?_).last ?_ ?_
    · rw [List.filterMap_append, hsmall]
      simp [Event.op, RunsFrom, Op.Allowed, Op.apply, hzip]
    · rw [List.filterMap_append, hsmall]
      simp [Event.op, Op.apply]
    · simp [Event.op, RunsFrom, Op.Allowed, Op.apply, hzip]
    · simp [Event.op, Op.apply, Finset.erase_insert_of_ne, hxml]

theorem decode_spec {m : Mail} (hlive : ∀ b, .block b ∈ live → b = .message)
    (hmessage : .block .message ∈ live) :
    ((¬∃ z n x j, decodeContent c.base64Decode m = .got (z, n) ∧ c.unzip z n = .got x ∧
        c.parseXml x = .got j) → (decode c growths posted m).Spec live live True) ∧
      ∀ z n x j, decodeContent c.base64Decode m = .got (z, n) → c.unzip z n = .got x →
        c.parseXml x = .got j →
          (decode c growths posted m).Spec live (live.erase .curl) (.curl ∈ live) := by
  have hzip : .block .zipdata ∉ live := fun h => by simpa using hlive _ h
  have hinner : ∀ b, .block b ∈ insert (.block .zipdata) live → b = .zipdata ∨ b = .message := by
    intro b hb
    rcases Finset.mem_insert.mp hb with hb | hb
    · exact .inl (by simpa using hb)
    · exact .inr (hlive b hb)
  rw [decodeContent_encoding]
  cases hencoding : contentEncoding m with
  | none =>
    refine ⟨fun _ => ?_, fun z n x j hgot => by cases hgot⟩
    simp only [decode, hencoding]
    exact .dies (by simp [List.filterMap_cons, Event.op, RunsFrom, Op.Allowed, hmessage])
  | some e =>
    by_cases hbase : e = bytes "base64"
    · obtain ⟨hkeeps, hspends⟩ := @extract_spec c growths posted (insert (.block .zipdata) live)
        (c.base64Decode m.bodyStr).1 (c.base64Decode m.bodyStr).2 hinner (by simp)
      rw [Finset.erase_insert hzip] at hkeeps
      simp only [decode, hencoding, if_pos hbase, Part.does_andThen_does]
      constructor
      · intro hnot
        refine (hkeeps ?_).first ?_ ?_
        · rintro ⟨x, j, hx, hj⟩
          exact hnot ⟨_, _, x, j, rfl, hx, hj⟩
        · simp [List.filterMap_cons, Event.op, RunsFrom, Op.Allowed, Op.apply, hmessage]
        · simp [List.filterMap_cons, Event.op, Op.apply]
      · intro z n x j hgot hx hj
        obtain ⟨hz, hn⟩ : (c.base64Decode m.bodyStr).1 = z ∧ (c.base64Decode m.bodyStr).2 = n := by
          simpa [Prod.ext_iff] using hgot
        rw [← hz, ← hn] at hx
        have hspec := hspends x j hx hj
        have hafter : ((insert (.block .zipdata) live).erase .curl).erase (.block .zipdata) =
            live.erase .curl := by
          rw [Finset.erase_right_comm, Finset.erase_insert hzip]
        rw [hafter, show (Resource.curl ∈ insert (.block .zipdata) live) ↔ Resource.curl ∈ live by simp]
          at hspec
        refine hspec.first ?_ ?_
        · simp [List.filterMap_cons, Event.op, RunsFrom, Op.Allowed, Op.apply, hmessage]
        · simp [List.filterMap_cons, Event.op, Op.apply]
    · simp only [decode, hencoding, if_neg hbase, Part.does_andThen_does]
      refine ⟨fun _ => .does ?_ ?_, fun z n x j hgot => by cases hgot⟩
      · simp [List.filterMap_cons, Event.op, RunsFrom, Op.Allowed, hmessage]
      · simp [List.filterMap_cons, Event.op, Op.apply]

/-- **One iteration**, from a point where no block is in use: it needs the
handle, and cleans it up, exactly when it posts a report. -/
theorem iteration_spec (hlive : NoBlocks live) (found : Option Mail) :
    ((¬∃ m ∈ found, Converts c m) → (iteration c growths posted found).Spec live live True) ∧
      ((∃ m ∈ found, Converts c m) →
        (iteration c growths posted found).Spec live (live.erase .curl) (.curl ∈ live)) := by
  have hmessage : .block .message ∉ live := hlive _
  cases found with
  | none =>
    refine ⟨fun _ => .does ?_ ?_, by simp⟩
    · simp [Event.op, RunsFrom, Op.Allowed, Op.apply]
    · simp [Event.op, Op.apply, hmessage]
  | some m =>
    have hinner : ∀ b, .block b ∈ insert (.block .message) live → b = .message := by
      intro b hb
      rcases Finset.mem_insert.mp hb with hb | hb
      · simpa using hb
      · exact absurd hb (hlive b)
    obtain ⟨hkeeps, hspends⟩ := @decode_spec c growths posted (insert (.block .message) live) m
      hinner (by simp)
    simp only [iteration]
    constructor
    · intro hnot
      refine (@Part.Spec.first _ _ (insert (.block .message) live) (insert (.block .message) live) _
        ?_ _ ?_ ?_).last ?_ ?_
      · by_cases hvalid : c.validateDkim m = 0
        · rw [if_pos hvalid]
          exact .does (by simp [List.filterMap_cons, Event.op, RunsFrom])
            (by simp [List.filterMap_cons, Event.op])
        · rw [if_neg hvalid]
          refine hkeeps ?_
          rintro ⟨z, n, x, j, hz, hx, hj⟩
          exact hnot ⟨m, rfl, hvalid, z, n, x, j, hz, hx, hj⟩
      · simp [Event.op, RunsFrom, Op.Allowed, Op.apply]
      · simp [Event.op, Op.apply]
      · simp [Event.op, RunsFrom, Op.Allowed]
      · simp [Event.op, Op.apply, Finset.erase_insert hmessage]
    · rintro ⟨m', hm, hvalid, z, n, x, j, hz, hx, hj⟩
      obtain rfl : m = m' := by simpa using hm
      have hspec := hspends z n x j hz hx hj
      rw [show (Resource.curl ∈ insert (.block .message) live) ↔ Resource.curl ∈ live by simp] at hspec
      rw [if_neg hvalid]
      refine (hspec.first ?_ ?_).last ?_ ?_
      · simp [Event.op, RunsFrom, Op.Allowed, Op.apply]
      · simp [Event.op, Op.apply]
      · simp [Event.op, RunsFrom, Op.Allowed]
      · have hafter : ((insert (.block .message) live).erase .curl).erase (.block .message) =
            live.erase .curl := by
          rw [Finset.erase_right_comm, Finset.erase_insert hmessage]
        simpa [Event.op, Op.apply] using hafter

end Stages

/-! ## A whole run -/

/-- The handle is in use, or not, and no block is. -/
def handleOnly (live : Bool) : Finset Resource := if live then {.curl} else ∅

theorem noBlocks_handleOnly (live : Bool) : NoBlocks (handleOnly live) := by
  intro b
  cases live with
  | true => simp [handleOnly]
  | false => simp [handleOnly]

/-- **A run of the loop**: with the handle, at most one iteration may post, and
without it none. -/
theorem runsFrom_turns (c : Callees) (growths : Bytes → Nat) (mails : List (Option Mail × Posted))
    (live : Bool) :
    RunsFrom (handleOnly live) ((turns c growths mails).flatMap fun t => t.part.ops) ↔
      if live then (turns c growths mails).Pairwise fun t t' => ¬(t.Posts c ∧ t'.Posts c)
      else ∀ t ∈ turns c growths mails, ¬t.Posts c := by
  induction mails generalizing live with
  | nil => cases live <;> simp [turns, RunsFrom]
  | cons head mails ih =>
    obtain ⟨found, posted⟩ := head
    obtain ⟨hkeeps, hspends⟩ := @iteration_spec c growths posted _ (noBlocks_handleOnly live) found
    generalize hpart : iteration c growths posted found = part at hkeeps hspends
    generalize hrest : (if part.alive then turns c growths mails else []) = rest
    have hturns : turns c growths ((found, posted) :: mails) = ⟨found, part⟩ :: rest := by
      rw [turns, hpart, hrest]
    -- the iterations behind this one, with the handle or without it
    have hnext : ∀ live' : Bool, (part.alive = true → liveAfter (handleOnly live) part.ops = handleOnly live') →
        (RunsFrom (liveAfter (handleOnly live) part.ops) (rest.flatMap fun t => t.part.ops) ↔
          if live' then rest.Pairwise fun t t' => ¬(t.Posts c ∧ t'.Posts c)
          else ∀ t ∈ rest, ¬t.Posts c) := by
      intro live' hafter
      by_cases halive : part.alive = true
      · rw [if_pos halive] at hrest
        rw [hafter halive, ← hrest]
        exact ih live'
      · rw [if_neg halive] at hrest
        cases live' <;> simp [← hrest, RunsFrom]
    rw [hturns, List.flatMap_cons, runsFrom_append]
    by_cases hposts : ∃ m ∈ found, Converts c m
    · obtain ⟨hruns, hleaves⟩ := hspends hposts
      have hfirst : (⟨found, part⟩ : Turn).Posts c := hposts
      cases live with
      | true =>
        have hgone := hnext false fun halive => by
          rw [hleaves halive]
          simp [handleOnly]
        rw [hruns, hgone]
        simp only [handleOnly, if_true, Finset.mem_singleton, true_and, List.pairwise_cons, hfirst,
          Bool.false_eq_true, if_false]
        refine (and_iff_left_of_imp fun hnone => ?_).symm
        exact List.pairwise_iff_forall_sublist.mpr fun hsub h =>
          hnone _ (hsub.subset List.mem_cons_self) h.1
      | false =>
        rw [hruns]
        simp [handleOnly, hfirst]
    · obtain ⟨hruns, hleaves⟩ := hkeeps hposts
      have hfirst : ¬(⟨found, part⟩ : Turn).Posts c := hposts
      rw [hruns, hnext live hleaves, true_and]
      cases live with
      | true => simp [hfirst]
      | false => simp [hfirst]

/-- The handle is made once. -/
theorem acquire_curl_not_mem (c : Callees) (growths : Bytes → Nat)
    (mails : List (Option Mail × Posted)) :
    .acquire .curl ∉ (turns c growths mails).flatMap fun t => t.part.ops := by
  intro h
  obtain ⟨t, -, ht⟩ := List.mem_flatMap.mp h
  obtain ⟨e, -, he⟩ := List.mem_filterMap.mp ht
  cases e with
  | malloc b => simp [Event.op] at he
  | _ => simp [Event.op] at he

/-- **The lifecycle is kept exactly** when no two iterations of the run post a
report. -/
theorem lifecycle_iff (c : Callees) (growths : Bytes → Nat) (mails : List (Option Mail × Posted)) :
    Lifecycle (runOps c growths mails) ↔
      (turns c growths mails).Pairwise fun t t' => ¬(t.Posts c ∧ t'.Posts c) := by
  have hturns := runsFrom_turns c growths mails true
  rw [if_pos rfl] at hturns
  rw [← hturns]
  have hstart : RunsFrom ∅ (runOps c growths mails) ↔
      RunsFrom (handleOnly true) ((turns c growths mails).flatMap fun t => t.part.ops) := by
    rw [runOps, RunsFrom]
    exact and_iff_right trivial
  constructor
  · intro h
    exact hstart.mp (disciplined_iff.mp h.disciplined)
  · intro h
    refine ⟨disciplined_iff.mpr (hstart.mpr h), ?_⟩
    have hcount := count_release_le h (acquire_curl_not_mem c growths mails)
    rw [runOps, List.count_cons_of_ne (by decide)]
    simpa [handleOnly] using hcount

/-- The handle is gone when a second report is posted. -/
theorem second_report_uses_handle :
    ¬∀ (c : Callees) (growths : Bytes → Nat) (mails : List (Option Mail × Posted)),
      Lifecycle (runOps c growths mails) := by
  intro h
  have hconverts : Converts acceptAll reportMail :=
    ⟨by decide, _, _, _, _, decodeContent_reportMail, rfl, rfl⟩
  have hlife := h acceptAll (fun _ => 0) [(some reportMail, .ok), (some reportMail, .ok)]
  have hruns := disciplined_iff.mp hlife.disciplined
  rw [runOps, RunsFrom] at hruns
  have hpairs := (runsFrom_turns acceptAll (fun _ => 0) _ true).mp hruns.2
  have halive : (iteration acceptAll (fun _ => 0) .ok (some reportMail)).alive = true := by
    decide +kernel
  simp only [turns, halive, if_true, List.pairwise_cons] at hpairs
  exact hpairs.1 _ List.mem_cons_self ⟨⟨reportMail, rfl, hconverts⟩, ⟨reportMail, rfl, hconverts⟩⟩

end ComfirmDmarc.MailHandler
