/- The BLAKE3 hash with 32 bytes of output.

   The input is cut into chunks of 1024 bytes and each chunk into blocks of 64. The
   blocks of a chunk are compressed one after the other, each from the chaining
   value of the one before. The chunks are the leaves of a binary tree in which
   every left part is a complete tree, as large as possible; a parent compresses the
   chaining values of its two children. What differs for the first and last block of
   a chunk, a parent and the root is a set of flags. -/
namespace Lakehouse.Hash.Blake3

/-- The first eight words of every compression that follows no other. -/
def initial : Vector UInt32 8 :=
  #v[0x6a09e667, 0xbb67ae85, 0x3c6ef372, 0xa54ff53a, 0x510e527f, 0x9b05688c, 0x1f83d9ab,
    0x5be0cd19]

/-- Where the words of a block go between two rounds. -/
def schedule : Vector (Fin 16) 16 := #v[2, 6, 3, 10, 7, 0, 4, 13, 1, 11, 12, 5, 9, 14, 15, 8]

def chunkStart : UInt32 := 1

def chunkEnd : UInt32 := 2

def parentFlag : UInt32 := 4

def rootFlag : UInt32 := 8

def rotateRight (w : UInt32) (n : UInt32) : UInt32 := (w >>> n) ||| (w <<< (32 - n))

/-- Mixes two words into four words of the state. -/
def mix (v : Vector UInt32 16) (a b c d : Fin 16) (x y : UInt32) : Vector UInt32 16 :=
  let va := v[a] + v[b] + x
  let vd := rotateRight (v[d] ^^^ va) 16
  let vc := v[c] + vd
  let vb := rotateRight (v[b] ^^^ vc) 12
  let va := va + vb + y
  let vd := rotateRight (vd ^^^ va) 8
  let vc := vc + vd
  let vb := rotateRight (vb ^^^ vc) 7
  (((v.set a va).set b vb).set c vc).set d vd

/-- Mixes the columns and then the diagonals of the state. -/
def round (v : Vector UInt32 16) (m : Vector UInt32 16) : Vector UInt32 16 :=
  let v := mix v 0 4 8 12 m[0] m[1]
  let v := mix v 1 5 9 13 m[2] m[3]
  let v := mix v 2 6 10 14 m[4] m[5]
  let v := mix v 3 7 11 15 m[6] m[7]
  let v := mix v 0 5 10 15 m[8] m[9]
  let v := mix v 1 6 11 12 m[10] m[11]
  let v := mix v 2 7 8 13 m[12] m[13]
  mix v 3 4 9 14 m[14] m[15]

def permute (m : Vector UInt32 16) : Vector UInt32 16 :=
  Vector.ofFn fun i => m[schedule[i]]

/-- The given number of rounds, with the words of the block rearranged between
them. -/
def rounds : Nat → Vector UInt32 16 → Vector UInt32 16 → Vector UInt32 16
  | 0, v, _ => v
  | 1, v, m => round v m
  | n + 1, v, m => rounds n (round v m) (permute m)

/-- The input of one compression. -/
structure Node where
  chaining : Vector UInt32 8
  block : Vector UInt32 16
  counter : UInt64
  length : UInt32
  flags : UInt32

namespace Node

def start (n : Node) : Vector UInt32 16 :=
  n.chaining ++ #v[initial[0], initial[1], initial[2], initial[3], n.counter.toUInt32,
    (n.counter >>> 32).toUInt32, n.length, n.flags]

/-- The first eight words of the compression. -/
def output (n : Node) : Vector UInt32 8 :=
  let v := rounds 7 n.start n.block
  Vector.ofFn fun i => v[i.val] ^^^ v[i.val + 8]

end Node

/-- The number whose bytes are given, the lowest first. -/
def littleEndian : List UInt8 → UInt32
  | [] => 0
  | b :: rest => b.toUInt32 ||| (littleEndian rest <<< 8)

/-- The words of a block, filled up with zeros. -/
def blockWords (bytes : List UInt8) : Vector UInt32 16 :=
  Vector.ofFn fun i => littleEndian ((bytes.drop (4 * i.val)).take 4)

/-- The list in pieces of `size` items, of which the last may be shorter; there are
at most `count` of them. -/
def pieces (size : Nat) : (count : Nat) → List UInt8 → List (List UInt8)
  | 0, _ => []
  | count + 1, bytes =>
    if bytes.length ≤ size then [bytes]
    else bytes.take size :: pieces size count (bytes.drop size)

/-- The last compression of a chunk, after those of the blocks before. -/
def chunkNode (counter : UInt64) (chaining : Vector UInt32 8) (first : UInt32) :
    List (List UInt8) → Node
  | [] => ⟨chaining, blockWords [], counter, 0, first ||| chunkEnd⟩
  | [block] =>
    ⟨chaining, blockWords block, counter, UInt32.ofNat block.length, first ||| chunkEnd⟩
  | block :: rest =>
    chunkNode counter
      (Node.output ⟨chaining, blockWords block, counter, UInt32.ofNat block.length, first⟩) 0 rest

def chunk (counter : UInt64) (bytes : List UInt8) : Node :=
  chunkNode counter initial chunkStart (pieces 64 16 bytes)

def parent (left right : Node) : Node :=
  ⟨initial, left.output ++ right.output, 0, 64, parentFlag⟩

/-- The number of chunks on the left of a tree of `n`: the greatest power of two
that leaves some for the right. -/
def leftSize (n : Nat) : Nat := 1 <<< Nat.log2 (n - 1)

/-- The topmost compression over the given chunks, counted from `counter`; the tree
has at most `depth` levels. -/
def tree : (depth : Nat) → (counter : UInt64) → List (List UInt8) → Node
  | depth + 1, counter, first :: second :: rest =>
    let chunks := first :: second :: rest
    let size := leftSize chunks.length
    parent (tree depth counter (chunks.take size))
      (tree depth (counter + UInt64.ofNat size) (chunks.drop size))
  | _, counter, [bytes] => chunk counter bytes
  | _, counter, _ => chunk counter []

/-- The four bytes of a word, the lowest first. -/
def wordBytes (w : UInt32) : List UInt8 :=
  [w.toUInt8, (w >>> 8).toUInt8, (w >>> 16).toUInt8, (w >>> 24).toUInt8]

/-- The hash of a sequence of bytes. -/
def hash (bytes : List UInt8) : List UInt8 :=
  let chunks := pieces 1024 (bytes.length / 1024 + 1) bytes
  let root := tree chunks.length 0 chunks
  ({ root with flags := root.flags ||| rootFlag }).output.toList.flatMap wordBytes

end Lakehouse.Hash.Blake3
