/-!
# The digest of a text

The MD5 digest of the UTF-8 form of a text, of which eight hexadecimal digits are kept. It names
blocks after their place in a function; nothing relies on digests being distinct.
-/

namespace BlockCompiler.Digest

/-- The four words that the digest works on. -/
structure Words where
  a : UInt32
  b : UInt32
  c : UInt32
  d : UInt32

/-- The words before the first block. -/
def start : Words := ⟨0x67452301, 0xefcdab89, 0x98badcfe, 0x10325476⟩

/-! ## One block -/

/-- The additive constants: `2³² · |sin i|` for `i = 1, …, 64`, without fraction. -/
def sines : List UInt32 :=
  [0xd76aa478, 0xe8c7b756, 0x242070db, 0xc1bdceee, 0xf57c0faf, 0x4787c62a,
    0xa8304613, 0xfd469501, 0x698098d8, 0x8b44f7af, 0xffff5bb1, 0x895cd7be,
    0x6b901122, 0xfd987193, 0xa679438e, 0x49b40821, 0xf61e2562, 0xc040b340,
    0x265e5a51, 0xe9b6c7aa, 0xd62f105d, 0x02441453, 0xd8a1e681, 0xe7d3fbc8,
    0x21e1cde6, 0xc33707d6, 0xf4d50d87, 0x455a14ed, 0xa9e3e905, 0xfcefa3f8,
    0x676f02d9, 0x8d2a4c8a, 0xfffa3942, 0x8771f681, 0x6d9d6122, 0xfde5380c,
    0xa4beea44, 0x4bdecfa9, 0xf6bb4b60, 0xbebfbc70, 0x289b7ec6, 0xeaa127fa,
    0xd4ef3085, 0x04881d05, 0xd9d4d039, 0xe6db99e5, 0x1fa27cf8, 0xc4ac5665,
    0xf4292244, 0x432aff97, 0xab9423a7, 0xfc93a039, 0x655b59c3, 0x8f0ccc92,
    0xffeff47d, 0x85845dd1, 0x6fa87e4f, 0xfe2ce6e0, 0xa3014314, 0x4e0811a1,
    0xf7537e82, 0xbd3af235, 0x2ad7d2bb, 0xeb86d391]

/-- The rotations of step `i`: four per round, taken in turn. -/
def rotation (i : Nat) : UInt32 :=
  match i / 16, i % 4 with
  | 0, 0 => 7 | 0, 1 => 12 | 0, 2 => 17 | 0, _ => 22
  | 1, 0 => 5 | 1, 1 => 9 | 1, 2 => 14 | 1, _ => 20
  | 2, 0 => 4 | 2, 1 => 11 | 2, 2 => 16 | 2, _ => 23
  | _, 0 => 6 | _, 1 => 10 | _, 2 => 15 | _, _ => 21

/-- The word of the block that step `i` adds. -/
def wordIndex (i : Nat) : Nat :=
  match i / 16 with
  | 0 => i
  | 1 => (5 * i + 1) % 16
  | 2 => (3 * i + 5) % 16
  | _ => 7 * i % 16

/-- The function of step `i` on the last three words. -/
def mix (i : Nat) (b c d : UInt32) : UInt32 :=
  match i / 16 with
  | 0 => (b &&& c) ||| (~~~b &&& d)
  | 1 => (d &&& b) ||| (~~~d &&& c)
  | 2 => b ^^^ c ^^^ d
  | _ => c ^^^ (b ||| ~~~d)

/-- Moves the bits of a word `n` places up, those at the top to the bottom. -/
def rotateLeft (x n : UInt32) : UInt32 := (x <<< n) ||| (x >>> (32 - n))

/-- Step `i` with its additive constant. -/
def step (block : List UInt32) (w : Words) (i : Nat) (sine : UInt32) : Words :=
  let sum := w.a + mix i w.b w.c w.d + block.getD (wordIndex i) 0 + sine
  ⟨w.d, w.b + rotateLeft sum (rotation i), w.b, w.c⟩

/-- Takes one block of sixteen words in. -/
def absorb (w : Words) (block : List UInt32) : Words :=
  let v := sines.zipIdx.foldl (fun v (sine, i) ↦ step block v i sine) w
  ⟨w.a + v.a, w.b + v.b, w.c + v.c, w.d + v.d⟩

/-! ## The whole text -/

/-- The bytes of `n`, the least significant first. -/
def bytesOf (count n : Nat) : List UInt8 :=
  (List.range count).map fun i ↦ (n / Nat.pow 256 i % 256).toUInt8

/-- Fills the text up to whole blocks: a one bit, zeros, and the length in bits. -/
def padded (bytes : List UInt8) : List UInt8 :=
  let zeros := (119 - bytes.length % 64) % 64
  bytes ++ [0x80] ++ List.replicate zeros 0 ++ bytesOf 8 (8 * bytes.length)

/-- Reads bytes as words, the least significant byte first. -/
def wordsOf : List UInt8 → List UInt32
  | a :: b :: c :: d :: rest =>
    (a.toUInt32 ||| b.toUInt32 <<< 8 ||| c.toUInt32 <<< 16 ||| d.toUInt32 <<< 24) :: wordsOf rest
  | _ => []

def ofBytes (bytes : List UInt8) : Words :=
  let words := wordsOf (padded bytes)
  (List.range (words.length / 16)).foldl (fun w k ↦ absorb w ((words.drop (16 * k)).take 16)) start

/-- The two hexadecimal digits of a byte. -/
def hexByte (b : UInt8) : List Char := [Nat.digitChar (b.toNat / 16), Nat.digitChar (b.toNat % 16)]

/-- The first eight hexadecimal digits of the digest of a text. -/
def short (text : String) : String :=
  String.ofList ((bytesOf 4 (ofBytes text.toUTF8.toList).a.toNat).flatMap hexByte)

end BlockCompiler.Digest
