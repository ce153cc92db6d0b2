import SignatureCache.Digest.Blake3
import SignatureCache.Tree.Basic

/-!
# Fingerprints

A fingerprint is the hash of a tree's shape: its keys, accuracies and links, in key order. Values
are left out; a value only ever changes together with an accuracy, which is not. An absent link is
the byte 0 and a key the byte 1 followed by its numbers, low byte first and negative ones modulo the
size of their word, so the bytes can be read back in one way only.
-/

namespace SignatureCache

namespace Fingerprint

/-- The lowest `count` bytes of a number, low byte first. -/
def lowBytes : Nat → Nat → List UInt8
  | 0, _ => []
  | count + 1, n => n.toUInt8 :: lowBytes count (n / 256)

/-- A signed number as a word of `count` bytes. -/
def wordBytes (count : Nat) (n : Int) : List UInt8 :=
  lowBytes count (n % 1 <<< (8 * count)).toNat

/-- A present key. -/
def keyBytes (key : DyadicInterval) : List UInt8 :=
  1 :: (wordBytes 8 key.offset ++ wordBytes 4 key.power)

/-- A link. -/
def linkBytes : Option DyadicInterval → List UInt8
  | none => [0]
  | some key => keyBytes key

/-- Everything that is hashed of one node. -/
def entryBytes {V : Type} (key : DyadicInterval) (node : Node V) : List UInt8 :=
  keyBytes key ++ wordBytes 4 node.accuracy ++ linkBytes node.parent? ++ linkBytes node.sibling?

/-- Two hexadecimal digits. -/
def hexByte (byte : UInt8) : List Char :=
  [Nat.digitChar (byte.toNat / 16), Nat.digitChar (byte.toNat % 16)]

/-- Bytes in hexadecimal digits. -/
def hex (bytes : List UInt8) : String :=
  String.ofList (bytes.flatMap hexByte)

end Fingerprint

/-- The bytes that a tree's shape is hashed from. -/
def Tree.shapeBytes {V : Type} (t : Tree V) : List UInt8 :=
  t.entries.flatMap fun entry => Fingerprint.entryBytes entry.1 entry.2

/-- The hash of a tree's shape, in hexadecimal digits. -/
def Tree.fingerprint {V : Type} (t : Tree V) : String :=
  Fingerprint.hex (Blake3.hash t.shapeBytes)

end SignatureCache
