import ComfirmDmarc.Lib.CMemory
import ComfirmDmarc.Lib.Trie

/-!
# Server -- the cache

`cache.c`: a tree of tables of 256 pointers, in which an id is looked up from
its last byte to its first one. `char` is signed, so that a byte from 128 on is
a large `unsigned int`: all of these bytes have the slot 255.
-/

namespace ComfirmDmarc.Server

open CMemory Trie

/-! ## The functions -/

/-- `(unsigned int) id[i]`. -/
def charAsUnsigned (c : UInt8) : Nat := if c < 128 then c.toNat else 0xffffff00 + c.toNat

/-- The slot of a byte: `(unsigned int) id[i] < 256 ? id[i] : 255`. -/
def cacheSlot (c : UInt8) : UInt8 := if charAsUnsigned c < 256 then c else 255

/-- `cache`, with the tables below it; `none` for `NULL`. -/
structure Cache (α : Type) where
  nodes : UInt8 → Option (Node UInt8 α)

inductive CacheFault
  /-- the byte in front of the id is read -/
  | emptyId
  /-- `nodes` or `value` of a null pointer is read -/
  | nullNode
  deriving DecidableEq

variable {α : Type}

/-- `cache_init`. -/
def cacheInit : Cache α := ⟨fun _ => none⟩

/-- `cache_create_node`, with `cache_init_node`. -/
def cacheCreateNode : Node UInt8 α := .mk none fun _ => none

/-- The slots of an id, as the loops take them. -/
def cacheSlots (id : Bytes) : List UInt8 := id.reverse.map cacheSlot

/-- The loop of `cache_add` from `node` on. -/
def cacheAddLoop : Node UInt8 α → List UInt8 → Option α → Node UInt8 α
  | .mk _ nodes, [], value => .mk value nodes
  | .mk old nodes, asc :: slots, value =>
    .mk old (Function.update nodes asc
      (some (cacheAddLoop ((nodes asc).getD cacheCreateNode) slots value)))

/-- `cache_add`; the value may be `NULL`. -/
def cacheAdd (c : Cache α) (id : Bytes) (value : Option α) : Except CacheFault (Cache α) :=
  match cacheSlots id with
  | [] => .error .emptyId
  | asc :: slots =>
    .ok ⟨Function.update c.nodes asc
      (some (cacheAddLoop ((c.nodes asc).getD cacheCreateNode) slots value))⟩

/-- The loop of the lookups that look for `NULL`; `none` where it meets one. -/
def cacheWalk : Node UInt8 α → List UInt8 → Option (Node UInt8 α)
  | node, [] => some node
  | .mk _ nodes, asc :: slots =>
    match nodes asc with
    | none => none
    | some node => cacheWalk node slots

/-- The node of an id of `len` bytes; `none` where a `NULL` is met. -/
def cacheReach (c : Cache α) (id : Bytes) : Except CacheFault (Option (Node UInt8 α)) :=
  match cacheSlots id with
  | [] => .error .emptyId
  | asc :: slots => .ok ((c.nodes asc).bind fun node => cacheWalk node slots)

/-- The loop of the lookups that do not look for `NULL`. The last node may be one. -/
def cacheDescend :
    Option (Node UInt8 α) → List UInt8 → Except CacheFault (Option (Node UInt8 α))
  | node, [] => .ok node
  | none, _ :: _ => .error .nullNode
  | some (.mk _ nodes), asc :: slots => cacheDescend (nodes asc) slots

/-- `cache_get_node`; `none` for `NULL`. -/
def cacheGetNode (c : Cache α) (id : Bytes) : Except CacheFault (Option (Node UInt8 α)) :=
  match cacheSlots id with
  | [] => .error .emptyId
  | asc :: slots => cacheDescend (c.nodes asc) slots

/-- `cache_get`. -/
def cacheGet (c : Cache α) (id : Bytes) : Except CacheFault (Option α) :=
  match cacheSlots id with
  | [] => .error .emptyId
  | asc :: slots =>
    match cacheDescend (c.nodes asc) slots with
    | .error fault => .error fault
    | .ok none => .error .nullNode
    | .ok (some node) => .ok node.value

/-- `cache_get_exists`. -/
def cacheGetExists (c : Cache α) (id : Bytes) : Except CacheFault (Option α) :=
  match cacheReach c id with
  | .error fault => .error fault
  | .ok none => .ok none
  | .ok (some node) => .ok node.value

/-- `cache_exists`: 0 for an id that exists. -/
def cacheExists (c : Cache α) (id : Bytes) : Except CacheFault Int :=
  match cacheReach c id with
  | .error fault => .error fault
  | .ok none => .ok 1
  | .ok (some _) => .ok 0

/-- Calls of `cache_add`, one after the other. -/
def cacheAddAll (c : Cache α) (adds : List (Bytes × Option α)) : Except CacheFault (Cache α) :=
  adds.foldlM (fun c a => cacheAdd c a.1 a.2) c

/-! ## The cache is a trie -/

/-- The table of the cache as a node. -/
def Cache.root (c : Cache α) : Node UInt8 α := .mk none c.nodes

theorem cacheAddLoop_eq (node : Node UInt8 α) (slots : List UInt8) (value : Option α) :
    cacheAddLoop node slots value = node.insert slots value := by
  induction slots generalizing node with
  | nil =>
    cases node
    rfl
  | cons asc slots ih =>
    cases node with
    | mk old nodes =>
      rw [cacheAddLoop, ih, Node.insert]
      rfl

theorem cacheWalk_eq (node : Node UInt8 α) (slots : List UInt8) :
    cacheWalk node slots = node.find slots := by
  induction slots generalizing node with
  | nil =>
    rw [find_nil]
    unfold cacheWalk
    rfl
  | cons asc slots ih =>
    cases node with
    | mk old nodes =>
      rw [cacheWalk, find_cons]
      cases nodes asc with
      | none => rfl
      | some child => exact ih child

theorem cacheSlots_eq_nil {id : Bytes} : cacheSlots id = [] ↔ id = [] := by
  simp [cacheSlots]

theorem root_cacheInit : (cacheInit : Cache α).root = .empty := rfl

/-- `cache_add` inserts at the slots of the id. -/
theorem cacheAdd_root {c c' : Cache α} {id : Bytes} {value : Option α}
    (h : cacheAdd c id value = .ok c') : c'.root = c.root.insert (cacheSlots id) value := by
  unfold cacheAdd at h
  cases hslots : cacheSlots id with
  | nil =>
    rw [hslots] at h
    cases h
  | cons asc slots =>
    rw [hslots] at h
    obtain rfl := Except.ok.inj h
    rw [Cache.root, Cache.root, Node.insert, cacheAddLoop_eq]
    rfl

/-- The lookups find the node at the slots of the id. -/
theorem cacheReach_eq (c : Cache α) {id : Bytes} (hne : id ≠ []) :
    cacheReach c id = .ok (c.root.find (cacheSlots id)) := by
  rw [cacheReach]
  cases hslots : cacheSlots id with
  | nil => exact absurd (cacheSlots_eq_nil.mp hslots) hne
  | cons asc slots =>
    rw [Cache.root, find_cons]
    simp only [cacheWalk_eq]

/-- Without the test for `NULL` only the last step may meet one. -/
theorem cacheDescend_eq (node : Option (Node UInt8 α)) (slots : List UInt8) :
    cacheDescend node slots =
      if slots = [] ∨ (node.bind fun n => n.find slots.dropLast).isSome = true then
        .ok (node.bind fun n => n.find slots)
      else .error .nullNode := by
  induction slots generalizing node with
  | nil =>
    rw [if_pos (.inl rfl)]
    cases node with
    | none => rfl
    | some n => simp [cacheDescend, find_nil]
  | cons asc slots ih =>
    cases node with
    | none => simp [cacheDescend]
    | some n =>
      cases n with
      | mk old nodes =>
        rw [cacheDescend, ih]
        cases slots with
        | nil => simp [find_nil, find_cons]
        | cons asc' slots => simp [find_cons]

theorem cacheGetNode_eq (c : Cache α) {id : Bytes} (hne : id ≠ []) :
    cacheGetNode c id =
      if (c.root.find (cacheSlots id).dropLast).isSome = true then
        .ok (c.root.find (cacheSlots id))
      else .error .nullNode := by
  cases hslots : cacheSlots id with
  | nil => exact absurd (cacheSlots_eq_nil.mp hslots) hne
  | cons asc slots =>
    have hroot : cacheGetNode c id = cacheDescend (some c.root) (asc :: slots) := by
      rw [cacheGetNode, hslots]
      rfl
    rw [hroot, cacheDescend_eq]
    simp

/-- `cache_get` reads the value of the node. -/
theorem cacheGet_eq (c : Cache α) (id : Bytes) :
    cacheGet c id = match cacheGetNode c id with
      | .error fault => .error fault
      | .ok none => .error .nullNode
      | .ok (some node) => .ok node.value := by
  rw [cacheGet, cacheGetNode]
  cases cacheSlots id with
  | nil => rfl
  | cons asc slots => rfl

/-- A path to a node leads over nodes. -/
theorem find_dropLast_isSome {n : Node UInt8 α} {path : List UInt8}
    (h : (n.find path).isSome = true) : (n.find path.dropLast).isSome = true := by
  induction path generalizing n with
  | nil => exact h
  | cons k ks ih =>
    cases n with
    | mk old nodes =>
      cases ks with
      | nil => simp [find_nil]
      | cons k' ks =>
        rw [List.dropLast_cons_cons, find_cons]
        rw [find_cons] at h
        cases hchild : nodes k with
        | none =>
          rw [hchild] at h
          cases h
        | some child =>
          rw [hchild] at h
          exact ih h

/-- Ids that are not empty are added. -/
theorem cacheAddAll_ok (c : Cache α) {adds : List (Bytes × Option α)} (hne : ∀ a ∈ adds, a.1 ≠ []) :
    ∃ c', cacheAddAll c adds = .ok c' := by
  induction adds generalizing c with
  | nil => exact ⟨c, rfl⟩
  | cons a adds ih =>
    obtain ⟨ha, hadds⟩ := List.forall_mem_cons.mp hne
    obtain ⟨asc, slots, hslots⟩ := List.exists_cons_of_ne_nil (mt cacheSlots_eq_nil.mp ha)
    have hadd : cacheAdd c a.1 a.2 = .ok ⟨Function.update c.nodes asc
        (some (cacheAddLoop ((c.nodes asc).getD cacheCreateNode) slots a.2))⟩ := by
      rw [cacheAdd, hslots]
    obtain ⟨c', hc'⟩ := ih _ hadds
    refine ⟨c', ?_⟩
    unfold cacheAddAll at hc' ⊢
    rw [List.foldlM_cons, hadd]
    exact hc'

/-- **The cache after some calls** is the trie of their entries. -/
theorem cacheAddAll_root {adds : List (Bytes × Option α)} {c c' : Cache α}
    (h : cacheAddAll c adds = .ok c') :
    c'.root = c.root.insertAll (adds.map fun a => (cacheSlots a.1, a.2)) := by
  induction adds generalizing c with
  | nil =>
    obtain rfl := Except.ok.inj h
    rfl
  | cons a adds ih =>
    unfold cacheAddAll at h ih
    rw [List.foldlM_cons] at h
    cases hadd : cacheAdd c a.1 a.2 with
    | error fault =>
      rw [hadd] at h
      cases h
    | ok c1 =>
      rw [hadd] at h
      rw [ih h, cacheAdd_root hadd]
      rfl

/-! ## What the lookups return -/

/-- The value that was added last for an id with the slots of `id`. -/
def lastAdded (adds : List (Bytes × Option α)) (id : Bytes) : Option α :=
  ((adds.reverse.find? fun a => a.1.map cacheSlot = id.map cacheSlot).bind Prod.snd)

/-- An id was added that ends in `id`, slot by slot. -/
def EndsAdded (adds : List (Bytes × Option α)) (id : Bytes) : Prop :=
  ∃ a ∈ adds, id.map cacheSlot <:+ a.1.map cacheSlot

instance (adds : List (Bytes × Option α)) (id : Bytes) : Decidable (EndsAdded adds id) :=
  inferInstanceAs (Decidable (∃ a ∈ adds, id.map cacheSlot <:+ a.1.map cacheSlot))

theorem cacheSlots_inj {id id' : Bytes} :
    cacheSlots id = cacheSlots id' ↔ id.map cacheSlot = id'.map cacheSlot := by
  rw [cacheSlots, cacheSlots, List.map_reverse, List.map_reverse, List.reverse_inj]

theorem lastAt_cacheSlots (adds : List (Bytes × Option α)) (id : Bytes) :
    lastAt (adds.map fun a => (cacheSlots a.1, a.2)) (cacheSlots id) = lastAdded adds id := by
  unfold lastAt lastAdded
  rw [← List.map_reverse, List.find?_map]
  simp only [Function.comp_def, cacheSlots_inj]
  cases adds.reverse.find? fun a => decide (a.1.map cacheSlot = id.map cacheSlot) with
  | none => rfl
  | some a => rfl

theorem dropLast_cacheSlots (id : Bytes) : (cacheSlots id).dropLast = cacheSlots id.tail := by
  rw [cacheSlots, cacheSlots, List.map_reverse, List.map_reverse, List.dropLast_reverse,
    List.map_tail]

/-- The nodes of the cache are those of the suffixes of the ids. -/
theorem find_isSome_iff {adds : List (Bytes × Option α)} {c : Cache α}
    (h : cacheAddAll cacheInit adds = .ok c) {id : Bytes} (hne : id ≠ []) :
    (c.root.find (cacheSlots id)).isSome = true ↔ EndsAdded adds id := by
  have hnode := find_insertAll_isSome (adds.map fun a => (cacheSlots a.1, a.2))
    (mt cacheSlots_eq_nil.mp hne)
  rw [← root_cacheInit, ← cacheAddAll_root h] at hnode
  rw [hnode]
  simp only [List.mem_map, exists_exists_and_eq_and, EndsAdded, cacheSlots, List.map_reverse,
    List.reverse_prefix]

/-- **The cache is a map from ids to values, up to their slots.** After any
calls of `cache_add`, `cache_get_exists` returns the value that was added last
for an id with the same slots; `cache_exists` returns 0 for every suffix of an
added id and 1 for everything else. For these suffixes `cache_get` agrees with
`cache_get_exists` and `cache_get_node` returns a node with that value. For
everything else `cache_get` reads through a null pointer; `cache_get_node` does,
too, unless only the node of the first byte is missing: then it returns `NULL`. -/
theorem cache_lookups {adds : List (Bytes × Option α)} {c : Cache α}
    (h : cacheAddAll cacheInit adds = .ok c) {id : Bytes} (hne : id ≠ []) :
    cacheGetExists c id = .ok (lastAdded adds id) ∧
      (cacheExists c id = .ok 0 ↔ EndsAdded adds id) ∧
      (cacheExists c id = .ok 1 ↔ ¬EndsAdded adds id) ∧
      (EndsAdded adds id → cacheGet c id = .ok (lastAdded adds id) ∧
        ∃ node, cacheGetNode c id = .ok (some node) ∧ node.value = lastAdded adds id) ∧
      (¬EndsAdded adds id → cacheGet c id = .error .nullNode ∧
        cacheGetNode c id =
          if id.tail = [] ∨ EndsAdded adds id.tail then .ok none else .error .nullNode) := by
  have hvalue := lookup_insertAll (adds.map fun a => (cacheSlots a.1, a.2)) (cacheSlots id)
  rw [← root_cacheInit, ← cacheAddAll_root h, lastAt_cacheSlots, Node.lookup] at hvalue
  have hnode := find_isSome_iff h hne
  have hreach := cacheReach_eq c hne
  have hget := cacheGetNode_eq c hne
  rw [cacheGet_eq]
  unfold cacheGetExists cacheExists
  rw [hreach]
  cases hfind : c.root.find (cacheSlots id) with
  | none =>
    rw [hfind] at hvalue hnode hget
    have hno : ¬EndsAdded adds id := fun hyes => by simpa using hnode.mpr hyes
    have hlast : lastAdded adds id = none := hvalue.symm
    -- the node in front of the last step is there, or it is not
    have htail : (c.root.find (cacheSlots id).dropLast).isSome = true ↔
        id.tail = [] ∨ EndsAdded adds id.tail := by
      rw [dropLast_cacheSlots]
      by_cases hone : id.tail = []
      · simp [hone, cacheSlots, find_nil]
      · rw [find_isSome_iff h hone]
        simp [hone]
    rw [hget]
    by_cases hparent : id.tail = [] ∨ EndsAdded adds id.tail
    · rw [if_pos (htail.mpr hparent)]
      simp [hno, hlast, hparent]
    · rw [if_neg (mt htail.mp hparent)]
      simp [hno, hlast, hparent]
  | some node =>
    rw [hfind] at hvalue hnode hget
    have hyes : EndsAdded adds id := hnode.mp rfl
    have hlast : lastAdded adds id = node.value := hvalue.symm
    have hparent : (c.root.find (cacheSlots id).dropLast).isSome = true :=
      find_dropLast_isSome (by rw [hfind]; rfl)
    rw [hget, if_pos hparent]
    simp [hyes, hlast]

section Examples

/-- Two ids that differ in a byte from 128 on. -/
def umlauts : List (Bytes × Option Nat) := [([97, 228], some 1), ([97, 246], some 2)]

/-- The second id replaces the first one, and so does every other such byte. -/
theorem cache_lookups_umlauts : ∃ c, cacheAddAll cacheInit umlauts = .ok c ∧
    cacheGetExists c [97, 228] = .ok (some 2) ∧ cacheExists c [252] = .ok 0 ∧
    cacheExists c [97] = .ok 1 ∧ cacheGet c [97] = .error .nullNode ∧
    cacheGetNode c [97] = .ok none ∧ cacheGetNode c [97, 97] = .error .nullNode := by
  obtain ⟨c, hc⟩ := cacheAddAll_ok (cacheInit : Cache Nat)
    (show ∀ a ∈ umlauts, a.1 ≠ [] by simp [umlauts])
  obtain ⟨hvalue, -⟩ := cache_lookups hc (List.cons_ne_nil 97 [228])
  obtain ⟨-, hexists, -⟩ := cache_lookups hc (List.cons_ne_nil 252 [])
  obtain ⟨-, -, hmissing, -, hone⟩ := cache_lookups hc (List.cons_ne_nil 97 [])
  obtain ⟨-, -, -, -, htwo⟩ := cache_lookups hc (List.cons_ne_nil 97 [97])
  have hlast : lastAdded umlauts [97, 228] = some 2 := by decide +kernel
  have hends : EndsAdded umlauts [252] ∧ ¬EndsAdded umlauts [97] ∧ ¬EndsAdded umlauts [97, 97] := by
    decide +kernel
  rw [hlast] at hvalue
  obtain ⟨hfault, hnode⟩ := hone hends.2.1
  rw [if_pos (.inl rfl)] at hnode
  have hnode2 := (htwo hends.2.2).2
  rw [if_neg (by simpa using hends.2.1)] at hnode2
  exact ⟨c, hc, hvalue, hexists.mpr hends.1, hmissing.mpr hends.2.1, hfault, hnode, hnode2⟩

end Examples

end ComfirmDmarc.Server
