/-!
# The BLAKE3 hash

The 256-bit hash without key. A message is cut into chunks of 1024 bytes and a chunk into blocks of
64; each block is mixed into a chaining value of eight words. Chunks are the leaves of a binary tree
in which every left subtree is as large as a power of two allows, and a parent is one more block,
holding the chaining values of its two sides. A block is kept pending until it is known whether it
is the last of all, for that one is mixed with a mark of its own and gives the hash.
-/

namespace SignatureCache

namespace Blake3

/-- Eight words that carry what has been hashed. -/
abbrev Chaining := Vector UInt32 8

/-- The sixteen words of a block, and of the state while it is mixed in. -/
abbrev Words := Vector UInt32 16

/-- The chaining value that every chunk starts from. -/
def initial : Chaining :=
  #v[0x6a09e667, 0xbb67ae85, 0x3c6ef372, 0xa54ff53a, 0x510e527f, 0x9b05688c, 0x1f83d9ab, 0x5be0cd19]

def chunkStart : UInt32 := 1
def chunkEnd : UInt32 := 2
def parentNode : UInt32 := 4
def lastNode : UInt32 := 8

def rotateRight (x n : UInt32) : UInt32 :=
  x >>> n ||| x <<< (32 - n)

/-- Mixes two words of the message into four words of the state. -/
def quarter (s : Words) (a b c d : Fin 16) (x y : UInt32) : Words :=
  let s := s.set a (s[a] + s[b] + x)
  let s := s.set d (rotateRight (s[d] ^^^ s[a]) 16)
  let s := s.set c (s[c] + s[d])
  let s := s.set b (rotateRight (s[b] ^^^ s[c]) 12)
  let s := s.set a (s[a] + s[b] + y)
  let s := s.set d (rotateRight (s[d] ^^^ s[a]) 8)
  let s := s.set c (s[c] + s[d])
  s.set b (rotateRight (s[b] ^^^ s[c]) 7)

/-- One round: columns, then diagonals. -/
def round (s m : Words) : Words :=
  let s := quarter s 0 4 8 12 m[0] m[1]
  let s := quarter s 1 5 9 13 m[2] m[3]
  let s := quarter s 2 6 10 14 m[4] m[5]
  let s := quarter s 3 7 11 15 m[6] m[7]
  let s := quarter s 0 5 10 15 m[8] m[9]
  let s := quarter s 1 6 11 12 m[10] m[11]
  let s := quarter s 2 7 8 13 m[12] m[13]
  quarter s 3 4 9 14 m[14] m[15]

/-- The order in which the next round reads the message. -/
def permuted (m : Words) : Words :=
  #v[m[2], m[6], m[3], m[10], m[7], m[0], m[4], m[13], m[1], m[11], m[12], m[5], m[9], m[14], m[15],
    m[8]]

/-- The given number of rounds. -/
def rounds : Nat → Words → Words → Words
  | 0, s, _ => s
  | n + 1, s, m => rounds n (round s m) (permuted m)

/-- A block that has not been mixed in yet. -/
structure Pending where
  chaining : Chaining
  block : Words
  counter : UInt64
  length : UInt32
  flags : UInt32

/-- Mixes a block in: seven rounds over the chaining value, constants and the block's data, then
both halves of the state together. -/
def Pending.compressed (p : Pending) (flags : UInt32) : Chaining :=
  let h := p.chaining
  let s : Words :=
    #v[h[0], h[1], h[2], h[3], h[4], h[5], h[6], h[7], initial[0], initial[1], initial[2], initial[3],
      p.counter.toUInt32, (p.counter >>> 32).toUInt32, p.length, flags]
  let s := rounds 7 s p.block
  Vector.ofFn fun i : Fin 8 => s[i.val] ^^^ s[i.val + 8]

/-- The chaining value after a block that is not the last of all. -/
def Pending.chain (p : Pending) : Chaining :=
  p.compressed p.flags

/-- The words of the hash, if the block is the last of all. -/
def Pending.root (p : Pending) : Chaining :=
  { p with counter := 0 }.compressed (p.flags ||| lastNode)

/-- Reads up to 64 bytes as words with the low byte first, filled up with zeros. -/
def wordsOf (bytes : List UInt8) : Words :=
  let bytes := bytes.toArray
  let byte (i : Nat) : UInt32 := (bytes.getD i 0).toUInt32
  Vector.ofFn fun i : Fin 16 =>
    byte (4 * i) ||| byte (4 * i + 1) <<< 8 ||| byte (4 * i + 2) <<< 16 ||| byte (4 * i + 3) <<< 24

/-- The last block of a chunk, with all blocks before it mixed in. -/
def chunkFrom (counter : UInt64) (chaining : Chaining) (flags : UInt32) (bytes : List UInt8) :
    Pending :=
  if bytes.length ≤ 64 then
    ⟨chaining, wordsOf bytes, counter, bytes.length.toUInt32, flags ||| chunkEnd⟩
  else
    let block : Pending := ⟨chaining, wordsOf (bytes.take 64), counter, 64, flags⟩
    chunkFrom counter block.chain 0 (bytes.drop 64)
termination_by bytes.length
decreasing_by rw [List.length_drop]; omega

/-- The block over two subtrees. -/
def parentOf (left right : Chaining) : Pending :=
  ⟨initial, (left ++ right : Vector UInt32 (8 + 8)), 0, 64, parentNode⟩

/-- The size of the left subtree of a message of more than one chunk: the largest power of two
chunks that leaves something for the right one. -/
def leftSize (size : Nat) : Nat :=
  1024 * 1 <<< ((size - 1) / 1024).log2

theorem leftSize_pos (size : Nat) : 0 < leftSize size :=
  Nat.mul_pos (by decide) (Nat.one_shiftLeft _ ▸ Nat.two_pow_pos _)

theorem leftSize_lt {size : Nat} (h : 1024 < size) : leftSize size < size := by
  have := Nat.log2_self_le (n := (size - 1) / 1024) (by omega)
  rw [leftSize, Nat.one_shiftLeft]
  omega

/-- The last block of a subtree that starts at the given chunk. -/
def subtree (counter : Nat) (bytes : List UInt8) : Pending :=
  if bytes.length ≤ 1024 then chunkFrom counter.toUInt64 initial chunkStart bytes
  else
    let size := leftSize bytes.length
    let left := subtree counter (bytes.take size)
    let right := subtree (counter + size / 1024) (bytes.drop size)
    parentOf left.chain right.chain
termination_by bytes.length
decreasing_by
  · have := leftSize_lt (show 1024 < bytes.length by omega)
    rw [List.length_take]
    omega
  · have := leftSize_pos bytes.length
    rw [List.length_drop]
    omega

/-- The hash of a message, as 32 bytes. -/
def hash (bytes : List UInt8) : List UInt8 :=
  (subtree 0 bytes).root.toList.flatMap fun word : UInt32 =>
    [word.toUInt8, (word >>> 8).toUInt8, (word >>> 16).toUInt8, (word >>> 24).toUInt8]

end Blake3

end SignatureCache
