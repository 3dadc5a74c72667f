/-
A 256-bit digest of bytes: the BLAKE3 hash.

The input is cut into chunks of 1024 bytes and every chunk into blocks of 64 bytes, which one compression function
chains. Chunks are the leaves of a binary tree whose left subtrees are full; the digest is the root's output. The
length of the input bounds the recursion.
-/
namespace MatrixEngine

/-- the 32 bytes of a digest -/
structure Digest where
  bytes : List UInt8
  deriving DecidableEq, Repr

namespace Digest

/-- eight words that one compression hands to the next -/
abbrev Chain := Vector UInt32 8

/-- the sixteen words of a block or of the working state -/
abbrev Words := Vector UInt32 16

/-- the words every chunk starts from -/
def initial : Chain :=
  #v[0x6A09E667, 0xBB67AE85, 0x3C6EF372, 0xA54FF53A, 0x510E527F, 0x9B05688C, 0x1F83D9AB, 0x5BE0CD19]

/-- how the message words are rearranged between rounds -/
def schedule : Vector (Fin 16) 16 := #v[2, 6, 3, 10, 7, 0, 4, 13, 1, 11, 12, 5, 9, 14, 15, 8]

def rotateRight (x : UInt32) (n : UInt32) : UInt32 := (x >>> n) ||| (x <<< (32 - n))

/-- mix two message words into four words of the state -/
def mix (s : Words) (a b c d : Fin 16) (x y : UInt32) : Words :=
  let s := s.set a (s[a] + s[b] + x)
  let s := s.set d (rotateRight (s[d] ^^^ s[a]) 16)
  let s := s.set c (s[c] + s[d])
  let s := s.set b (rotateRight (s[b] ^^^ s[c]) 12)
  let s := s.set a (s[a] + s[b] + y)
  let s := s.set d (rotateRight (s[d] ^^^ s[a]) 8)
  let s := s.set c (s[c] + s[d])
  s.set b (rotateRight (s[b] ^^^ s[c]) 7)

/-- one round: the four columns, then the four diagonals -/
def round (s m : Words) : Words :=
  let s := mix s 0 4 8 12 m[0] m[1]
  let s := mix s 1 5 9 13 m[2] m[3]
  let s := mix s 2 6 10 14 m[4] m[5]
  let s := mix s 3 7 11 15 m[6] m[7]
  let s := mix s 0 5 10 15 m[8] m[9]
  let s := mix s 1 6 11 12 m[10] m[11]
  let s := mix s 2 7 8 13 m[12] m[13]
  mix s 3 4 9 14 m[14] m[15]

def permute (m : Words) : Words := schedule.map fun i => m[i]

/-- `n` rounds with the message rearranged between them -/
def rounds : Nat → Words → Words → Words
  | 0, s, _ => s
  | n + 1, s, m => rounds n (round s m) (permute m)

/-- what marks a block: its place in a chunk or in the tree -/
def chunkStart : UInt32 := 1
def chunkEnd : UInt32 := 2
def parentNode : UInt32 := 4
def rootNode : UInt32 := 8

/-- a compression about to be made; the root's differs from the others only by a mark -/
structure Node where
  chain : Chain
  block : Words
  counter : Nat
  length : Nat
  marks : UInt32

/-- the output words of a compression under further marks -/
def Node.output (n : Node) (marks : UInt32) : Chain :=
  let h := n.chain
  let s : Words := #v[h[0], h[1], h[2], h[3], h[4], h[5], h[6], h[7], initial[0], initial[1], initial[2], initial[3],
    UInt32.ofNat n.counter, UInt32.ofNat (n.counter / 0x100000000), UInt32.ofNat n.length, n.marks ||| marks]
  let r := rounds 7 s n.block
  #v[r[0] ^^^ r[8], r[1] ^^^ r[9], r[2] ^^^ r[10], r[3] ^^^ r[11], r[4] ^^^ r[12], r[5] ^^^ r[13], r[6] ^^^ r[14],
    r[7] ^^^ r[15]]

/-- the byte at an offset, zero behind the end -/
def byteAt (bs : ByteArray) (i : Nat) : UInt32 := if _h : i < bs.size then bs[i].toUInt32 else 0

/-- the little-endian word at an offset -/
def wordAt (bs : ByteArray) (i : Nat) : UInt32 :=
  byteAt bs i ||| (byteAt bs (i + 1) <<< 8) ||| (byteAt bs (i + 2) <<< 16) ||| (byteAt bs (i + 3) <<< 24)

/-- the block at an offset -/
def blockAt (bs : ByteArray) (i : Nat) : Words := Vector.ofFn fun k => wordAt bs (i + 4 * k.val)

def chunkSize : Nat := 1024

def blockSize : Nat := 64

/-- chain `n` blocks from an offset on; the last one is left to be compressed -/
def chainBlocks (bs : ByteArray) (counter : Nat) : Nat → Nat → Chain → UInt32 → Node
  | 0, i, c, first => ⟨c, blockAt bs i, counter, min blockSize (bs.size - i), first ||| chunkEnd⟩
  | n + 1, i, c, first =>
    chainBlocks bs counter n (i + blockSize)
      ((⟨c, blockAt bs i, counter, blockSize, first⟩ : Node).output 0) 0

/-- the last compression of chunk `k` -/
def chunk (bs : ByteArray) (k : Nat) : Node :=
  let length := min chunkSize (bs.size - k * chunkSize)
  chainBlocks bs k ((length - 1) / blockSize) (k * chunkSize) initial chunkStart

/-- the compression that joins two subtrees -/
def parent (l r : Chain) : Node := ⟨initial, (l ++ r), 0, blockSize, parentNode⟩

/-- chunks in the left subtree of `n`: the largest power of two below `n` -/
def leftSize (n : Nat) : Nat := Nat.pow 2 (n - 1).log2

theorem leftSize_lt {n : Nat} (h : 1 < n) : leftSize n < n := by
  have h0 : n - 1 ≠ 0 := by omega
  have h1 : n - 1 < n := by omega
  exact Nat.lt_of_le_of_lt (Nat.log2_self_le h0) h1

theorem leftSize_pos (n : Nat) : 0 < leftSize n := Nat.two_pow_pos _

/-- the tree over `n` chunks from chunk `k` on -/
def tree (bs : ByteArray) (k n : Nat) : Node :=
  if _h : 1 < n then
    parent ((tree bs k (leftSize n)).output 0) ((tree bs (k + leftSize n) (n - leftSize n)).output 0)
  else chunk bs k
termination_by n
decreasing_by
  · exact leftSize_lt _h
  · have := leftSize_pos n
    omega

/-- the four bytes of a word, lowest first -/
def wordBytes (w : UInt32) : List UInt8 :=
  [w.toUInt8, (w >>> 8).toUInt8, (w >>> 16).toUInt8, (w >>> 24).toUInt8]

def ofBytes (bs : ByteArray) : Digest :=
  let chunks := max 1 ((bs.size + chunkSize - 1) / chunkSize)
  ⟨((tree bs 0 chunks).output rootNode).toList.flatMap wordBytes⟩

/-- the version that salts digests of documents -/
def version : String := "0.1.0"

/-- the digest of a document, salted with the version -/
def ofText (text : String) : Digest := ofBytes (version ++ text).toUTF8

def hexByte (b : UInt8) : List Char := [Nat.digitChar (b.toNat / 16), Nat.digitChar (b.toNat % 16)]

def hex (d : Digest) : String := String.ofList (d.bytes.flatMap hexByte)

/-- the first twelve hexadecimal digits, enough to tell plans apart -/
def short (d : Digest) : String := String.ofList ((d.bytes.flatMap hexByte).take 12)

end Digest

end MatrixEngine
