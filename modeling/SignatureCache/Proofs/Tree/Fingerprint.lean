import SignatureCache.Proofs.DyadicInterval.KeyOrder
import SignatureCache.Proofs.Tree.Shape

/-!
# What a fingerprint tells apart

The bytes of a tree's shape carry no lengths and no separators, and an absent link takes up fewer of
them than a present one. They can still be read in one way only: a tag says how much of a link
follows, everything else has a fixed width, and a signed word gives back the number that it was made
from. So an entry can be cut off the front of any longer run of bytes, and two trees with the same
bytes have one shape. Fingerprints of two shapes can only be equal if the hash itself takes two
messages to one value.
-/

namespace SignatureCache

variable {V V' : Type}

/-! ### Words of bytes -/

namespace Word

theorem eq_of_emod_eq32 {m n : Int} (hm : fits32 m = true) (hn : fits32 n = true)
    (h : m % 2 ^ 32 = n % 2 ^ 32) : m = n := by
  rw [fits32_iff] at hm hn
  omega

theorem eq_of_emod_eq64 {m n : Int} (hm : fits64 m = true) (hn : fits64 n = true)
    (h : m % 2 ^ 64 = n % 2 ^ 64) : m = n := by
  rw [fits64_iff] at hm hn
  omega

end Word

namespace Fingerprint

open DyadicInterval

@[simp] theorem length_lowBytes (count n : Nat) : (lowBytes count n).length = count := by
  induction count generalizing n with
  | zero => rfl
  | succ count ih => rw [lowBytes, List.length_cons, ih]

/-- A number that has no more bytes than these is known by them. -/
theorem lowBytes_inj {count m n : Nat} (hm : m < 256 ^ count) (hn : n < 256 ^ count)
    (h : lowBytes count m = lowBytes count n) : m = n := by
  induction count generalizing m n with
  | zero => omega
  | succ count ih =>
    obtain ⟨hfirst, hrest⟩ := List.cons.inj h
    have hfirst : m % 256 = n % 256 := by simpa using congrArg UInt8.toNat hfirst
    rw [Nat.pow_succ] at hm hn
    have hrest : m / 256 = n / 256 := ih (by omega) (by omega) hrest
    omega

/-- A word at the front determines its number, up to multiples of the word's size, and the rest. -/
theorem wordBytes_append_inj {count : Nat} {m n : Int} {rest rest' : List UInt8}
    (h : wordBytes count m ++ rest = wordBytes count n ++ rest') :
    m % 2 ^ (8 * count) = n % 2 ^ (8 * count) ∧ rest = rest' := by
  obtain ⟨hword, hrest⟩ := List.append_inj h (by simp [wordBytes])
  refine ⟨?_, hrest⟩
  have hpos : (0 : Int) < 2 ^ (8 * count) := by positivity
  have hsize : ((256 ^ count : Nat) : Int) = 2 ^ (8 * count) := by
    rw [pow_mul]
    norm_num
  rw [wordBytes, wordBytes, Nat.one_shiftLeft, Nat.cast_pow, Nat.cast_ofNat] at hword
  have hm := Int.emod_lt_of_pos m hpos
  have hn := Int.emod_lt_of_pos n hpos
  have hm' := Int.emod_nonneg m hpos.ne'
  have hn' := Int.emod_nonneg n hpos.ne'
  have heq := lowBytes_inj (by omega) (by omega) hword
  omega

/-! ### Keys, links and entries -/

variable {I J : DyadicInterval} {rest rest' : List UInt8}

theorem keyBytes_append_inj (hI : I.InWords) (hJ : J.InWords)
    (h : keyBytes I ++ rest = keyBytes J ++ rest') : I = J ∧ rest = rest' := by
  simp only [keyBytes, List.cons_append, List.append_assoc, List.cons.injEq, true_and] at h
  obtain ⟨hoffset, h⟩ := wordBytes_append_inj h
  obtain ⟨hpower, h⟩ := wordBytes_append_inj h
  refine ⟨?_, h⟩
  ext
  · exact Word.eq_of_emod_eq64 hI.offset hJ.offset hoffset
  · exact Word.eq_of_emod_eq32 hI.power hJ.power hpower

/-- The tag tells an absent link from a present one. -/
theorem linkBytes_append_inj {link link' : Option DyadicInterval}
    (hlink : ∀ I, link = some I → I.InWords) (hlink' : ∀ I, link' = some I → I.InWords)
    (h : linkBytes link ++ rest = linkBytes link' ++ rest') : link = link' ∧ rest = rest' := by
  cases link with
  | none =>
    cases link' with
    | none => exact ⟨rfl, (List.cons.inj h).2⟩
    | some J => exact absurd (List.cons.inj h).1 (by decide)
  | some I =>
    cases link' with
    | none => exact absurd (List.cons.inj h).1 (by decide)
    | some J =>
      obtain ⟨hkey, hrest⟩ := keyBytes_append_inj (hlink I rfl) (hlink' J rfl) h
      exact ⟨congrArg some hkey, hrest⟩

end Fingerprint

namespace Node

/-- The numbers of a node that are hashed fit the words that hold them. -/
structure InWords (node : Node V) : Prop where
  accuracy : Word.fits32 node.accuracy = true
  parent : ∀ I, node.parent? = some I → I.InWords
  sibling : ∀ I, node.sibling? = some I → I.InWords

end Node

namespace Fingerprint

/-- What is hashed of an entry, before it is written as bytes. -/
def outline (entry : DyadicInterval × Node V) :
    DyadicInterval × Int × Option DyadicInterval × Option DyadicInterval :=
  (entry.1, entry.2.accuracy, entry.2.parent?, entry.2.sibling?)

/-- An entry can be cut off the front of any longer run of bytes. -/
theorem entryBytes_append_inj {key key' : DyadicInterval} {node : Node V} {node' : Node V'}
    {rest rest' : List UInt8} (hkey : key.InWords) (hkey' : key'.InWords) (hnode : node.InWords)
    (hnode' : node'.InWords)
    (h : entryBytes key node ++ rest = entryBytes key' node' ++ rest') :
    outline (key, node) = outline (key', node') ∧ rest = rest' := by
  simp only [entryBytes, List.append_assoc] at h
  obtain ⟨hk, h⟩ := keyBytes_append_inj hkey hkey' h
  obtain ⟨ha, h⟩ := wordBytes_append_inj h
  obtain ⟨hp, h⟩ := linkBytes_append_inj hnode.parent hnode'.parent h
  obtain ⟨hs, h⟩ := linkBytes_append_inj hnode.sibling hnode'.sibling h
  have ha := Word.eq_of_emod_eq32 hnode.accuracy hnode'.accuracy ha
  refine ⟨?_, h⟩
  simp only [outline, hk, ha, hp, hs]

theorem entryBytes_ne_nil (key : DyadicInterval) (node : Node V) : entryBytes key node ≠ [] := by
  simp [entryBytes, keyBytes]

/-- The bytes of a run of entries determine how many there are and what is hashed of each. -/
theorem map_outline_eq_of_bytes {entries : List (DyadicInterval × Node V)}
    {entries' : List (DyadicInterval × Node V')}
    (hfit : ∀ e ∈ entries, e.1.InWords ∧ e.2.InWords)
    (hfit' : ∀ e ∈ entries', e.1.InWords ∧ e.2.InWords)
    (h : (entries.flatMap fun e => entryBytes e.1 e.2) =
      entries'.flatMap fun e => entryBytes e.1 e.2) :
    entries.map outline = entries'.map outline := by
  induction entries generalizing entries' with
  | nil =>
    cases entries' with
    | nil => rfl
    | cons e' entries' =>
      rw [List.flatMap_nil, List.flatMap_cons] at h
      exact absurd (List.append_eq_nil_iff.1 h.symm).1 (entryBytes_ne_nil _ _)
  | cons e entries ih =>
    cases entries' with
    | nil =>
      rw [List.flatMap_nil, List.flatMap_cons] at h
      exact absurd (List.append_eq_nil_iff.1 h).1 (entryBytes_ne_nil _ _)
    | cons e' entries' =>
      rw [List.forall_mem_cons] at hfit hfit'
      rw [List.flatMap_cons, List.flatMap_cons] at h
      obtain ⟨hhead, htail⟩ :=
        entryBytes_append_inj hfit.1.1 hfit'.1.1 hfit.1.2 hfit'.1.2 h
      rw [List.map_cons, List.map_cons]
      exact congrArg₂ List.cons hhead (ih hfit.2 hfit'.2 htail)

/-! ### Hexadecimal digits -/

theorem digitChar_inj {m n : Nat} (hm : m < 16) (hn : n < 16)
    (h : Nat.digitChar m = Nat.digitChar n) : m = n := by
  have hall : ∀ m < 16, ∀ n < 16, Nat.digitChar m = Nat.digitChar n → m = n := by decide
  exact hall m hm n hn h

theorem hexByte_inj {a b : UInt8} (h : hexByte a = hexByte b) : a = b := by
  simp only [hexByte, List.cons.injEq, and_true] at h
  have ha := a.toNat_lt
  have hb := b.toNat_lt
  have hhigh := digitChar_inj (by omega) (by omega) h.1
  have hlow := digitChar_inj (by omega) (by omega) h.2
  rw [← UInt8.toNat_inj]
  omega

theorem hex_inj {bytes bytes' : List UInt8} (h : hex bytes = hex bytes') : bytes = bytes' := by
  replace h : bytes.flatMap hexByte = bytes'.flatMap hexByte := String.ofList_injective h
  induction bytes generalizing bytes' with
  | nil =>
    cases bytes' with
    | nil => rfl
    | cons b bytes' => cases h
  | cons a bytes ih =>
    cases bytes' with
    | nil => cases h
    | cons b bytes' =>
      rw [List.flatMap_cons, List.flatMap_cons] at h
      obtain ⟨hbyte, hrest⟩ := List.append_inj h rfl
      rw [hexByte_inj hbyte, ih hrest]

end Fingerprint

namespace Tree

open Fingerprint

/-- The numbers of a tree that are hashed fit the words that hold them. -/
def InWords (t : Tree V) : Prop :=
  ∀ key node, t.find? key = some node → key.InWords ∧ node.InWords

variable {t : Tree V} {t' : Tree V'} {key : DyadicInterval} {node : Node V}

theorem inWords_empty : (empty : Tree V).InWords := by
  intro key node h
  rw [find?_empty] at h
  cases h

theorem InWords.put (h : t.InWords) (hkey : key.InWords) (hnode : node.InWords) :
    (t.put key node).InWords := by
  intro other node' hfind
  rw [find?_put] at hfind
  split at hfind
  · next heq =>
    cases hfind
    exact ⟨heq ▸ hkey, hnode⟩
  · exact h other node' hfind

theorem InWords.entries (h : t.InWords) : ∀ e ∈ t.entries, e.1.InWords ∧ e.2.InWords := by
  intro e he
  exact h e.1 e.2 ((mem_entries_iff t e.1 e.2).1 he)

theorem exists_find?_of_outlines (h : t.entries.map outline = t'.entries.map outline)
    (hnode : t.find? key = some node) :
    ∃ node', t'.find? key = some node' ∧ outline (key, node') = outline (key, node) := by
  have hmem : outline (key, node) ∈ t'.entries.map outline :=
    h ▸ List.mem_map_of_mem ((mem_entries_iff t key node).2 hnode)
  obtain ⟨⟨key', node'⟩, hentry, houtline⟩ := List.mem_map.1 hmem
  obtain rfl : key' = key := congrArg Prod.fst houtline
  exact ⟨node', (mem_entries_iff t' key' node').1 hentry, houtline⟩

theorem sameShape_of_outlines (h : t.entries.map outline = t'.entries.map outline) :
    SameShape t t' := by
  have hall : ∀ key, t'.accuracy? key = t.accuracy? key ∧ t'.parent? key = t.parent? key ∧
      t'.sibling? key = t.sibling? key := by
    intro key
    simp only [accuracy?, parent?, sibling?]
    cases hnode : t.find? key with
    | some node =>
      obtain ⟨node', hnode', houtline⟩ := exists_find?_of_outlines h hnode
      simpa [hnode', outline] using houtline
    | none =>
      cases hnode' : t'.find? key with
      | none => exact ⟨rfl, rfl, rfl⟩
      | some node' =>
        obtain ⟨node, hsome, -⟩ := exists_find?_of_outlines h.symm hnode'
        cases hnode.symm.trans hsome
  exact ⟨fun key => (hall key).1, fun key => (hall key).2.1, fun key => (hall key).2.2⟩

theorem shapeBytes_eq_iff (h : t.InWords) (h' : t'.InWords) :
    t'.shapeBytes = t.shapeBytes ↔ SameShape t t' := by
  constructor
  · intro hbytes
    exact sameShape_of_outlines (map_outline_eq_of_bytes h.entries h'.entries hbytes.symm)
  · exact SameShape.shapeBytes_eq

theorem sameShape_iff :
    SameShape t t' ↔ t'.size = t.size ∧ t'.keys = t.keys ∧
      ∀ key, t'.accuracy? key = t.accuracy? key ∧ t'.parent? key = t.parent? key ∧
        t'.sibling? key = t.sibling? key := by
  constructor
  · intro h
    have hkeys := keys_eq_of_contains h.contains_eq
    refine ⟨by rw [← length_keys, ← length_keys, hkeys], hkeys, fun key => ?_⟩
    exact ⟨h.accuracy?_eq key, h.parent?_eq key, h.sibling?_eq key⟩
  · rintro ⟨-, -, h⟩
    exact ⟨fun key => (h key).1, fun key => (h key).2.1, fun key => (h key).2.2⟩

/-- Two trees give the hash the same bytes just if they have one shape, that is, the same number of
nodes and the same keys, accuracies and links. If trees of two shapes ever have one fingerprint,
their bytes are two messages with one hash. -/
theorem bytes_determine_shape (h : t.InWords) (h' : t'.InWords) :
    (t'.shapeBytes = t.shapeBytes ↔ SameShape t t') ∧
    (SameShape t t' ↔ t'.size = t.size ∧ t'.keys = t.keys ∧
      ∀ key, t'.accuracy? key = t.accuracy? key ∧ t'.parent? key = t.parent? key ∧
        t'.sibling? key = t.sibling? key) ∧
    (t'.fingerprint = t.fingerprint → ¬ SameShape t t' →
      t'.shapeBytes ≠ t.shapeBytes ∧ Blake3.hash t'.shapeBytes = Blake3.hash t.shapeBytes) := by
  refine ⟨shapeBytes_eq_iff h h', sameShape_iff, ?_⟩
  intro hfingerprint hshape
  exact ⟨mt (shapeBytes_eq_iff h h').1 hshape, hex_inj hfingerprint⟩

/-- Two nodes with a parent link each take up as many bytes as one without links and one with both.
The bytes are others all the same, while they do not show whether a value is another. -/
theorem bytes_determine_shape_of_equal_length :
    let left : DyadicInterval := ⟨-2, 1⟩
    let right : DyadicInterval := ⟨-1, 1⟩
    let whole : DyadicInterval := ⟨-1, 0⟩
    let t : Tree Bool := (empty.put left ⟨true, 1, some whole, none⟩).put right
      ⟨true, 1, some whole, none⟩
    let t' : Tree Nat := (empty.put left ⟨7, 1, some whole, none⟩).put right
      ⟨8, 1, some whole, none⟩
    let u : Tree Nat := (empty.put left ⟨7, 1, none, none⟩).put right
      ⟨8, 1, some whole, some left⟩
    t.InWords ∧ t'.InWords ∧ u.InWords ∧ t'.shapeBytes = t.shapeBytes ∧
      u.shapeBytes.length = t.shapeBytes.length ∧ u.shapeBytes ≠ t.shapeBytes := by
  intro left right whole t t' u
  have hleft : left.InWords := ⟨by decide, by decide⟩
  have hright : right.InWords := ⟨by decide, by decide⟩
  have hwhole : whole.InWords := ⟨by decide, by decide⟩
  have hnone : ∀ I : DyadicInterval, none = some I → I.InWords := nofun
  have hsome : ∀ {J : DyadicInterval}, J.InWords → ∀ I, some J = some I → I.InWords := by
    rintro J hJ I ⟨⟩
    exact hJ
  have ht : t.InWords :=
    (inWords_empty.put hleft ⟨by decide, hsome hwhole, hnone⟩).put hright
      ⟨by decide, hsome hwhole, hnone⟩
  have ht' : t'.InWords :=
    (inWords_empty.put hleft ⟨by decide, hsome hwhole, hnone⟩).put hright
      ⟨by decide, hsome hwhole, hnone⟩
  have hu : u.InWords :=
    (inWords_empty.put hleft ⟨by decide, hnone, hnone⟩).put hright
      ⟨by decide, hsome hwhole, hsome hleft⟩
  have hsame : SameShape t t' := by
    constructor <;> intro key <;>
      simp only [t, t', accuracy?, parent?, sibling?, find?_put, find?_empty] <;>
      split_ifs <;> rfl
  refine ⟨ht, ht', hu, (bytes_determine_shape ht ht').1.2 hsame, by decide +kernel, ?_⟩
  intro hbytes
  have hshape := (bytes_determine_shape ht hu).1.1 hbytes
  have hparent := hshape.parent?_eq left
  revert hparent
  decide

end Tree

end SignatureCache
