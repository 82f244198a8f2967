import ClassDiagram.Text.Hex

/-! The hash BLAKE3 of a list of bytes. The input is cut into chunks of 1024 bytes, which are
the leaves of a binary tree: of every inner node the left part is a full tree, as large as the
input allows. Each node is compressed to eight words, and the root's words are the digest. -/

namespace ClassDiagram.Blake3

abbrev Chain := Vector UInt32 8
abbrev Block := Vector UInt32 16

def startWords : Chain :=
  #v[0x6A09E667, 0xBB67AE85, 0x3C6EF372, 0xA54FF53A,
     0x510E527F, 0x9B05688C, 0x1F83D9AB, 0x5BE0CD19]

def permutation : Vector (Fin 16) 16 :=
  #v[2, 6, 3, 10, 7, 0, 4, 13, 1, 11, 12, 5, 9, 14, 15, 8]

def chunkStart : UInt32 := 1
def chunkEnd : UInt32 := 2
def parentFlag : UInt32 := 4
def rootFlag : UInt32 := 8

def blockSize : Nat := 64
def chunkSize : Nat := 1024

def rotateRight (x n : UInt32) : UInt32 := (x >>> n) ||| (x <<< (32 - n))

def mix (s : Block) (a b c d : Fin 16) (x y : UInt32) : Block :=
  let s := s.set a (s[a] + s[b] + x)
  let s := s.set d (rotateRight (s[d] ^^^ s[a]) 16)
  let s := s.set c (s[c] + s[d])
  let s := s.set b (rotateRight (s[b] ^^^ s[c]) 12)
  let s := s.set a (s[a] + s[b] + y)
  let s := s.set d (rotateRight (s[d] ^^^ s[a]) 8)
  let s := s.set c (s[c] + s[d])
  s.set b (rotateRight (s[b] ^^^ s[c]) 7)

def round (s m : Block) : Block :=
  let s := mix s 0 4 8 12 m[0] m[1]
  let s := mix s 1 5 9 13 m[2] m[3]
  let s := mix s 2 6 10 14 m[4] m[5]
  let s := mix s 3 7 11 15 m[6] m[7]
  let s := mix s 0 5 10 15 m[8] m[9]
  let s := mix s 1 6 11 12 m[10] m[11]
  let s := mix s 2 7 8 13 m[12] m[13]
  mix s 3 4 9 14 m[14] m[15]

def permute (m : Block) : Block := Vector.ofFn fun i => m[permutation[i]]

def rounds : Nat → Block → Block → Block
  | 0, s, _ => s
  | n + 1, s, m => rounds n (round s m) (permute m)

structure Node where
  chain : Chain
  block : Block
  counter : UInt64
  size : UInt32
  flags : UInt32

namespace Node

def compress (n : Node) (flags : UInt32) : Chain :=
  let s : Block :=
    #v[n.chain[0], n.chain[1], n.chain[2], n.chain[3],
       n.chain[4], n.chain[5], n.chain[6], n.chain[7],
       startWords[0], startWords[1], startWords[2], startWords[3],
       n.counter.toUInt32, (n.counter >>> 32).toUInt32, n.size, n.flags ||| flags]
  let s := rounds 7 s n.block
  Vector.ofFn fun i => s[i.val] ^^^ s[i.val + 8]

def chainValue (n : Node) : Chain := n.compress 0

end Node

def word (bytes : List UInt8) (i : Nat) : UInt32 :=
  let byte := fun j => ((bytes.drop (4 * i + j)).headD 0).toUInt32
  byte 0 ||| (byte 1 <<< 8) ||| (byte 2 <<< 16) ||| (byte 3 <<< 24)

def blockOf (bytes : List UInt8) : Block := Vector.ofFn fun i => word bytes i

def chunkFrom (chain : Chain) (counter : UInt64) (start : UInt32) (bytes : List UInt8) : Node :=
  let size := bytes.length
  let block := bytes.take blockSize
  if size ≤ blockSize then
    ⟨chain, blockOf block, counter, size.toUInt32, start ||| chunkEnd⟩
  else
    let node : Node := ⟨chain, blockOf block, counter, blockSize.toUInt32, start⟩
    chunkFrom node.chainValue counter 0 (bytes.drop blockSize)
termination_by bytes.length
decreasing_by simp [blockSize] at *; omega

def chunk (counter : UInt64) (bytes : List UInt8) : Node :=
  chunkFrom startWords counter chunkStart bytes

def parent (left right : Chain) : Node :=
  ⟨startWords, (left ++ right).cast rfl, 0, blockSize.toUInt32, parentFlag⟩

/-- The number of bytes on the left of a node: the largest power of two of chunks that leaves
something on the right. -/
def leftSize (size : Nat) : Nat := Nat.pow 2 ((size - 1) / chunkSize).log2 * chunkSize

theorem leftSize_pos (size : Nat) : 0 < leftSize size :=
  Nat.mul_pos (Nat.two_pow_pos _) (by decide)

theorem leftSize_lt {size : Nat} (h : chunkSize < size) : leftSize size < size := by
  have chunks : (size - 1) / chunkSize ≠ 0 := by
    simp only [chunkSize] at *
    omega
  have := Nat.mul_le_mul_right chunkSize (Nat.log2_self_le chunks)
  have := Nat.div_mul_le_self (size - 1) chunkSize
  unfold leftSize
  rw [Nat.pow_eq]
  omega

def subtree (counter : UInt64) (bytes : List UInt8) : Node :=
  if bytes.length ≤ chunkSize then chunk counter bytes
  else
    let left := leftSize bytes.length
    parent (subtree counter (bytes.take left)).chainValue
      (subtree (counter + (left / chunkSize).toUInt64) (bytes.drop left)).chainValue
termination_by bytes.length
decreasing_by
  · have : leftSize bytes.length < bytes.length := leftSize_lt (by omega)
    simp only [List.length_take]
    omega
  · have := leftSize_pos bytes.length
    simp only [List.length_drop]
    omega

def digest (bytes : List UInt8) : Chain := (subtree 0 bytes).compress rootFlag

def hexByte (b : UInt8) : List Char :=
  [Text.lowerHex (b.toNat / 16), Text.lowerHex (b.toNat % 16)]

def wordBytes (w : UInt32) : List UInt8 :=
  [w.toUInt8, (w >>> 8).toUInt8, (w >>> 16).toUInt8, (w >>> 24).toUInt8]

def hex (bytes : List UInt8) : String :=
  String.ofList ((digest bytes).toList.flatMap fun w => (wordBytes w).flatMap hexByte)

end ClassDiagram.Blake3
