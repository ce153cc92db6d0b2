import SignatureCache.DyadicInterval.Word

/-!
# Indexes of keys

An ordered map in memory is laid out in nodes of a few keys each. Between the keys of a node, before
the first and after the last hang the nodes of the level below. A search goes through the keys of
the topmost node in order, up to the first that is not passed, and on in the node in front of that
key. A new key goes where the search for it has ended at the lowest level. A node with too many keys
is parted around a middle one, which moves up between the two parts; above the topmost node this
makes a new level.

The tree says which keys are cached, and its order where each belongs. An index says in addition
with which keys a search compares, which only matters as a comparison can break off.
-/

namespace SignatureCache

/-- The keys of a node, and what hangs before, between and after them. -/
inductive Row (α : Type) where
  | last (below : α)
  | cons (below : α) (key : DyadicInterval) (rest : Row α)

/-- What takes the place of a changed node: one node, or two around a key. -/
inductive Parts (α : Type) where
  | whole (node : α)
  | parted (left : α) (middle : DyadicInterval) (right : α)

/-- The second list is the first one with a key put between the smaller and the greater ones. -/
def Placed (key : DyadicInterval) (keys keys' : List DyadicInterval) : Prop :=
  ∃ smaller greater, keys = smaller ++ greater ∧ keys' = smaller ++ key :: greater ∧
    (∀ k ∈ smaller, compare k key = .lt) ∧ ∀ k ∈ greater, compare key k = .lt

namespace Placed

variable {key k : DyadicInterval} {keys keys' l : List DyadicInterval}

theorem mem_iff (h : Placed key keys keys') : k ∈ keys' ↔ k = key ∨ k ∈ keys := by
  obtain ⟨smaller, greater, rfl, rfl, -, -⟩ := h
  simp only [List.mem_append, List.mem_cons]
  exact or_left_comm

theorem pairwise (h : Placed key keys keys') (ordered : keys.Pairwise fun I J => compare I J = .lt) :
    keys'.Pairwise fun I J => compare I J = .lt := by
  obtain ⟨smaller, greater, rfl, rfl, hsmaller, hgreater⟩ := h
  obtain ⟨hs, hg, hsg⟩ := List.pairwise_append.1 ordered
  refine List.pairwise_append.2 ⟨hs, List.pairwise_cons.2 ⟨hgreater, hg⟩, ?_⟩
  intro I hI J hJ
  rcases List.mem_cons.1 hJ with rfl | hJ
  · exact hsmaller I hI
  · exact hsg I hI J hJ

theorem append_left (h : Placed key keys keys') (hl : ∀ k ∈ l, compare k key = .lt) :
    Placed key (l ++ keys) (l ++ keys') := by
  obtain ⟨smaller, greater, rfl, rfl, hsmaller, hgreater⟩ := h
  refine ⟨l ++ smaller, greater, (List.append_assoc ..).symm, (List.append_assoc ..).symm, ?_,
    hgreater⟩
  intro k hk
  rcases List.mem_append.1 hk with hk | hk
  · exact hl k hk
  · exact hsmaller k hk

theorem append_right (h : Placed key keys keys') (hl : ∀ k ∈ l, compare key k = .lt) :
    Placed key (keys ++ l) (keys' ++ l) := by
  obtain ⟨smaller, greater, rfl, rfl, hsmaller, hgreater⟩ := h
  refine ⟨smaller, greater ++ l, List.append_assoc .., by simp, hsmaller, ?_⟩
  intro k hk
  rcases List.mem_append.1 hk with hk | hk
  · exact hgreater k hk
  · exact hl k hk

end Placed

/-- The keys of what takes the place of a node, with those below, in order. -/
def Parts.keys {α : Type} (below : α → List DyadicInterval) : Parts α → List DyadicInterval
  | whole node => below node
  | parted left middle right => below left ++ middle :: below right

namespace Row

variable {α : Type}

/-- The most keys that a node keeps. -/
def capacity : Nat := 11

/-- The number of keys. -/
def length : Row α → Nat
  | last _ => 0
  | cons _ _ rest => rest.length + 1

/-- The keys with those below, in order. -/
def keys (below : α → List DyadicInterval) : Row α → List DyadicInterval
  | last node => below node
  | cons node key rest => below node ++ key :: rest.keys below

/-- Whether a key is found. It is compared with the keys of the row in order, and looked for below
in front of the first that it comes before. -/
def search (key : DyadicInterval) (below : α → Except Fault Bool) : Row α → Except Fault Bool
  | last node => below node
  | cons node other rest =>
    match key.compare? other with
    | .ok .lt => below node
    | .ok .eq => .ok true
    | .ok .gt => rest.search key below
    | .error _ => .error (.incomparable key other)

/-- The number of keys before the place of a key. -/
def rank (key : DyadicInterval) : Row α → Nat
  | last _ => 0
  | cons _ other rest => if compare key other = .lt then 0 else rest.rank key + 1

/-- Puts what takes the place of a node in front of what follows the node. -/
def attach (rest : α → Row α) : Parts α → Row α
  | .whole node => rest node
  | .parted left middle right => cons left middle (rest right)

/-- Changes what hangs at the place of a key. -/
def change (key : DyadicInterval) (changed : α → Parts α) : Row α → Row α
  | last node => attach last (changed node)
  | cons node other rest =>
    if compare key other = .lt then attach (fun node => cons node other rest) (changed node)
    else cons node other (rest.change key changed)

/-- Parts a row around the key that has `n` keys before it. -/
def part : Nat → Row α → Parts (Row α)
  | _, last node => .whole (last node)
  | 0, cons node key rest => .parted (last node) key rest
  | n + 1, cons node key rest =>
    match rest.part n with
    | .whole rest => .whole (cons node key rest)
    | .parted left middle right => .parted (cons node key left) middle right

/-- The place of the key around which a row with one key too many is parted: the sixth or the
seventh, after the place at which the last one came in. -/
def middle (rank : Nat) : Nat :=
  if rank ≤ 4 ∨ rank = 6 then 5 else 6

/-- Changes what hangs at the place of a key, and parts the row if it has too many keys then. -/
def insert (key : DyadicInterval) (changed : α → Parts α) (row : Row α) : Parts (Row α) :=
  let row' := row.change key changed
  if row'.length ≤ capacity then .whole row' else row'.part (middle (row.rank key))

variable {key : DyadicInterval} {below : α → List DyadicInterval}

/-- A search only breaks off where the key cannot be compared with one in the row or below. -/
theorem search_fault {fault : Fault} {search : α → Except Fault Bool}
    (hbelow : ∀ node, search node = .error fault → ∃ other ∈ below node,
      key.compare? other = .error .overflow ∧ fault = .incomparable key other)
    {row : Row α} (h : row.search key search = .error fault) : ∃ other ∈ row.keys below,
      key.compare? other = .error .overflow ∧ fault = .incomparable key other := by
  induction row with
  | last node => exact hbelow node h
  | cons node other rest ih =>
    rw [Row.search] at h
    rw [keys]
    cases hcompare : key.compare? other with
    | error cause =>
      obtain rfl := DyadicInterval.onlyOverflows_compare? key other cause hcompare
      rw [hcompare] at h
      cases h
      exact ⟨other, by simp, hcompare, rfl⟩
    | ok order =>
      rw [hcompare] at h
      cases order with
      | lt =>
        obtain ⟨k, hk, hfault⟩ := hbelow node h
        exact ⟨k, List.mem_append_left _ hk, hfault⟩
      | eq => cases h
      | gt =>
        obtain ⟨k, hk, hfault⟩ := ih h
        exact ⟨k, List.mem_append_right _ (List.mem_cons_of_mem _ hk), hfault⟩

theorem keys_attach {f : α → Row α} {l : List DyadicInterval}
    (h : ∀ node, (f node).keys below = below node ++ l) (parts : Parts α) :
    (attach f parts).keys below = parts.keys below ++ l := by
  cases parts with
  | whole node => exact h node
  | parted left middle right => rw [attach, keys, h, Parts.keys, List.append_assoc, List.cons_append]

theorem keys_part (n : Nat) (row : Row α) : (row.part n).keys (keys below) = row.keys below := by
  induction row generalizing n with
  | last node =>
    rw [part]
    rfl
  | cons node key rest ih =>
    cases n with
    | zero => rfl
    | succ n =>
      have hrest := ih n
      rw [part]
      cases hpart : rest.part n with
      | whole rest' =>
        rw [hpart] at hrest
        change below node ++ key :: rest'.keys below = _
        rw [show rest'.keys below = rest.keys below from hrest, keys]
      | parted left middle right =>
        rw [hpart] at hrest
        change (below node ++ key :: left.keys below) ++ middle :: right.keys below = _
        rw [keys, List.append_assoc, List.cons_append]
        exact congrArg (fun l => below node ++ key :: l) hrest

/-- If a change below places the key there, it places it in the row. -/
theorem keys_change {changed : α → Parts α}
    (hbelow : ∀ node, (below node).Pairwise (fun I J => compare I J = .lt) → key ∉ below node →
      Placed key (below node) ((changed node).keys below))
    {row : Row α} (ordered : (row.keys below).Pairwise fun I J => compare I J = .lt)
    (new : key ∉ row.keys below) :
    Placed key (row.keys below) ((row.change key changed).keys below) := by
  induction row with
  | last node =>
    have hkeys := keys_attach (f := last) (l := [])
      (fun node => (List.append_nil (below node)).symm) (changed node)
    rw [change, hkeys, List.append_nil]
    exact hbelow node ordered new
  | cons node other rest ih =>
    rw [keys] at ordered new ⊢
    obtain ⟨hnode, hrest, hacross⟩ := List.pairwise_append.1 ordered
    obtain ⟨hother, hrest⟩ := List.pairwise_cons.1 hrest
    simp only [List.mem_append, List.mem_cons, not_or] at new
    rw [change]
    split
    · next hlt =>
      have hkeys := keys_attach (f := fun node => cons node other rest)
        (l := other :: rest.keys below) (fun _ => rfl) (changed node)
      rw [hkeys]
      apply (hbelow node hnode new.1).append_right
      intro k hk
      rcases List.mem_cons.1 hk with rfl | hk
      · exact hlt
      · exact Std.TransCmp.lt_trans hlt (hother k hk)
    · next hlt =>
      have hgt : compare other key = .lt := by
        rw [← Std.OrientedCmp.gt_iff_lt]
        cases hcompare : compare key other with
        | lt => exact absurd hcompare hlt
        | eq => exact absurd (Std.LawfulEqCmp.eq_of_compare hcompare) new.2.1
        | gt => rfl
      rw [keys]
      have hplaced := ih hrest new.2.2
      have hcons : Placed key ((below node ++ [other]) ++ rest.keys below)
          ((below node ++ [other]) ++ (rest.change key changed).keys below) := by
        apply hplaced.append_left
        intro k hk
        rcases List.mem_append.1 hk with hk | hk
        · exact Std.TransCmp.lt_trans (hacross k hk other List.mem_cons_self) hgt
        · obtain rfl := List.mem_singleton.1 hk
          exact hgt
      rwa [List.append_assoc, List.append_assoc] at hcons

theorem keys_insert {changed : α → Parts α}
    (hbelow : ∀ node, (below node).Pairwise (fun I J => compare I J = .lt) → key ∉ below node →
      Placed key (below node) ((changed node).keys below))
    {row : Row α} (ordered : (row.keys below).Pairwise fun I J => compare I J = .lt)
    (new : key ∉ row.keys below) :
    Placed key (row.keys below) ((row.insert key changed).keys (keys below)) := by
  have hchange := keys_change hbelow ordered new
  rw [insert]
  split
  · exact hchange
  · rwa [keys_part]

end Row

/-- The nodes with a number of levels from them down. Nothing hangs below the lowest keys. -/
def Level : Nat → Type
  | 0 => Unit
  | n + 1 => Row (Level n)

namespace Level

/-- The keys of a node and those below, in order. -/
def keys : (n : Nat) → Level n → List DyadicInterval
  | 0, _ => []
  | n + 1, row => Row.keys (keys n) row

/-- Whether a key is found in a node or below. -/
def search (key : DyadicInterval) : (n : Nat) → Level n → Except Fault Bool
  | 0, _ => .ok false
  | n + 1, row => Row.search key (search key n) row

/-- Puts a key in its place below a node. -/
def insert (key : DyadicInterval) : (n : Nat) → Level n → Parts (Level n)
  | 0, node => .parted node key node
  | n + 1, row => Row.insert key (insert key n) row

variable {key : DyadicInterval}

theorem search_fault {fault : Fault} : {n : Nat} → {node : Level n} →
    search key n node = .error fault → ∃ other ∈ keys n node,
      key.compare? other = .error .overflow ∧ fault = .incomparable key other
  | _ + 1, _, h => Row.search_fault (fun _ h => search_fault h) h

theorem keys_insert : {n : Nat} → {node : Level n} →
    (keys n node).Pairwise (fun I J => compare I J = .lt) → key ∉ keys n node →
      Placed key (keys n node) ((insert key n node).keys (keys n))
  | 0, _, _, _ => ⟨[], [], rfl, rfl, by simp, by simp⟩
  | _ + 1, _, ordered, new => Row.keys_insert (fun _ => keys_insert) ordered new

end Level

/-- An index: its topmost node, with all keys in order. -/
structure KeyIndex where
  height : Nat
  top : Level height
  ordered : (Level.keys height top).Pairwise fun I J => compare I J = .lt

namespace KeyIndex

/-- The index without keys. -/
def empty : KeyIndex := ⟨0, (), .nil⟩

/-- All keys, in order. -/
def keys (index : KeyIndex) : List DyadicInterval :=
  Level.keys index.height index.top

/-- Whether a key is found. -/
def search (index : KeyIndex) (key : DyadicInterval) : Except Fault Bool :=
  Level.search key index.height index.top

/-- Adds a new key. A topmost node that is parted gets a level above it. -/
def insert (index : KeyIndex) (key : DyadicInterval) (new : key ∉ index.keys) : KeyIndex :=
  have placed := Level.keys_insert index.ordered new
  match hinsert : Level.insert key index.height index.top with
  | .whole top => ⟨index.height, top, by
      rw [hinsert] at placed
      exact placed.pairwise index.ordered⟩
  | .parted left middle right => ⟨index.height + 1, .cons left middle (.last right), by
      rw [hinsert] at placed
      exact placed.pairwise index.ordered⟩

theorem keys_insert (index : KeyIndex) {key : DyadicInterval} (new : key ∉ index.keys) :
    Placed key index.keys (index.insert key new).keys := by
  have placed := Level.keys_insert index.ordered new
  rw [insert]
  split
  · next hinsert =>
    rw [hinsert] at placed
    exact placed
  · next hinsert =>
    rw [hinsert] at placed
    exact placed

/-- A search only breaks off where the key cannot be compared with one of the index. -/
theorem search_fault {index : KeyIndex} {key : DyadicInterval} {fault : Fault}
    (h : index.search key = .error fault) : ∃ other ∈ index.keys,
      key.compare? other = .error .overflow ∧ fault = .incomparable key other :=
  Level.search_fault h

end KeyIndex

end SignatureCache
