import Mathlib.Logic.Function.Basic
import Mathlib.Data.List.Infix

/-!
# Tries

A trie over arbitrary keys and values: a node has a value, perhaps, and a child
for some keys. A path leads from a node to another one. Inserting at a path
makes the nodes that are missing on it and replaces the value at its end.
-/

namespace Trie

inductive Node (κ α : Type) where
  | mk (value : Option α) (nodes : κ → Option (Node κ α))

variable {κ α : Type}

def Node.empty : Node κ α := .mk none fun _ => none

def Node.value : Node κ α → Option α
  | .mk value _ => value

/-- The node at the end of a path. -/
def Node.find : Node κ α → List κ → Option (Node κ α)
  | n, [] => some n
  | .mk _ nodes, k :: ks =>
    match nodes k with
    | none => none
    | some child => child.find ks

/-- The value at the end of a path. -/
def Node.lookup (n : Node κ α) (path : List κ) : Option α := (n.find path).bind Node.value

theorem find_nil (n : Node κ α) : n.find [] = some n := by
  unfold Node.find
  rfl

theorem find_cons (value : Option α) (nodes : κ → Option (Node κ α)) (k : κ) (ks : List κ) :
    (Node.mk value nodes).find (k :: ks) = (nodes k).bind fun child => child.find ks := by
  rw [Node.find]
  cases nodes k with
  | none => rfl
  | some child => rfl

theorem find_empty_cons (k : κ) (ks : List κ) : (Node.empty : Node κ α).find (k :: ks) = none := by
  rw [Node.empty, find_cons]
  rfl

theorem lookup_empty (path : List κ) : (Node.empty : Node κ α).lookup path = none := by
  unfold Node.lookup
  cases path with
  | nil =>
    rw [find_nil]
    rfl
  | cons k ks =>
    rw [find_empty_cons]
    rfl

variable [DecidableEq κ]

/-- The nodes on the path, made where they are missing, with the value at its end. -/
def Node.insert : Node κ α → List κ → Option α → Node κ α
  | .mk _ nodes, [], value => .mk value nodes
  | .mk old nodes, k :: ks, value =>
    .mk old (Function.update nodes k (some (((nodes k).getD .empty).insert ks value)))

/-- The children behind an insertion. -/
theorem find_insert_cons (old : Option α) (nodes : κ → Option (Node κ α)) (k l : κ) (ks ls : List κ)
    (value : Option α) :
    ((Node.mk old nodes).insert (k :: ks) value).find (l :: ls) =
      if l = k then (((nodes k).getD .empty).insert ks value).find ls
      else (Node.mk old nodes).find (l :: ls) := by
  rw [Node.insert, find_cons, find_cons]
  by_cases hl : l = k
  · subst hl
    rw [Function.update_self, if_pos rfl]
    rfl
  · rw [Function.update_of_ne hl, if_neg hl]

/-- **The nodes behind an insertion** are those of before and those on the path. -/
theorem find_insert_isSome (n : Node κ α) (p q : List κ) (value : Option α) :
    ((n.insert p value).find q).isSome = true ↔ (n.find q).isSome = true ∨ q <+: p := by
  induction p generalizing n q with
  | nil =>
    cases n with
    | mk old nodes =>
      cases q with
      | nil => simp [find_nil]
      | cons l ls => simp [Node.insert, find_cons]
  | cons k ks ih =>
    cases n with
    | mk old nodes =>
      cases q with
      | nil => simp [find_nil]
      | cons l ls =>
        rw [find_insert_cons]
        by_cases hl : l = k
        · subst hl
          rw [if_pos rfl, ih, find_cons, List.cons_prefix_cons]
          cases hchild : nodes l with
          | some child => simp
          | none =>
            -- the child is new
            cases ls with
            | nil => simp [find_nil]
            | cons m ms => simp [find_empty_cons]
        · rw [if_neg hl, List.cons_prefix_cons]
          simp [hl]

/-- **An insertion changes the value at its path and no other.** -/
theorem lookup_insert (n : Node κ α) (p q : List κ) (value : Option α) :
    (n.insert p value).lookup q = if q = p then value else n.lookup q := by
  unfold Node.lookup
  induction p generalizing n q with
  | nil =>
    cases n with
    | mk old nodes =>
      cases q with
      | nil => simp [find_nil, Node.insert, Node.value]
      | cons l ls => simp [Node.insert, find_cons]
  | cons k ks ih =>
    cases n with
    | mk old nodes =>
      cases q with
      | nil => simp [find_nil, Node.insert, Node.value]
      | cons l ls =>
        rw [find_insert_cons]
        by_cases hl : l = k
        · subst hl
          rw [if_pos rfl, ih, find_cons]
          by_cases hls : ls = ks
          · simp [hls]
          · rw [if_neg hls, if_neg (by simpa using hls)]
            cases hchild : nodes l with
            | some child => simp
            | none =>
              cases ls with
              | nil => simp [find_nil, Node.empty, Node.value]
              | cons m ms => simp [find_empty_cons]
        · rw [if_neg hl, if_neg (by simp [hl])]

/-! ## Insertions one after the other -/

/-- Each path with its value. -/
def Node.insertAll (n : Node κ α) (entries : List (List κ × Option α)) : Node κ α :=
  entries.foldl (fun n e => n.insert e.1 e.2) n

/-- The value of the last entry at the path. -/
def lastAt (entries : List (List κ × Option α)) (path : List κ) : Option α :=
  ((entries.reverse.find? fun e => e.1 = path).bind Prod.snd)

theorem insertAll_concat (n : Node κ α) (entries : List (List κ × Option α))
    (e : List κ × Option α) :
    n.insertAll (entries ++ [e]) = (n.insertAll entries).insert e.1 e.2 := by
  simp [Node.insertAll]

/-- **A trie holds the last entry of each path.** -/
theorem lookup_insertAll (entries : List (List κ × Option α)) (path : List κ) :
    (Node.empty.insertAll entries).lookup path = lastAt entries path := by
  induction entries using List.reverseRecOn with
  | nil => exact lookup_empty path
  | append_singleton entries e ih =>
    rw [insertAll_concat, lookup_insert, ih, lastAt, lastAt, List.reverse_concat, List.find?_cons]
    by_cases he : path = e.1
    · simp [he]
    · simp [he, Ne.symm he]

/-- **A trie has a node at the paths that an entry passes.** -/
theorem find_insertAll_isSome (entries : List (List κ × Option α)) {path : List κ}
    (hne : path ≠ []) :
    ((Node.empty.insertAll entries).find path).isSome = true ↔ ∃ e ∈ entries, path <+: e.1 := by
  induction entries using List.reverseRecOn with
  | nil =>
    obtain ⟨k, ks, rfl⟩ := List.exists_cons_of_ne_nil hne
    simp [Node.insertAll, find_empty_cons]
  | append_singleton entries e ih =>
    rw [insertAll_concat, find_insert_isSome, ih]
    simp [or_and_right, exists_or]

end Trie
