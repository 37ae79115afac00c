import TensorGraph.Tensor.Count
import TensorGraph.Tensor.Storage

/-!
A stream of pseudo-random words: the ChaCha cipher with twelve rounds, a counter of 64 bits that starts at zero,
and a key that is made from a seed of 64 bits. Normally distributed data: two words
give two uniform numbers in single precision, and these give one normal number by the logarithm of the first and
the angle of the second.
-/
namespace TensorGraph.Random

/-! ## Words -/

/-- The sixteen words that the cipher works on. -/
abbrev Block := Vector UInt32 16

/-- Turns a word to the left. -/
def rotateLeft (w : UInt32) (n : UInt32) : UInt32 := (w <<< n) ||| (w >>> (32 - n))

/-- Mixes four words of a block. -/
def quarterRound (s : Block) (a b c d : Fin 16) : Block :=
  let s := s.set a (s[a] + s[b])
  let s := s.set d (rotateLeft (s[d] ^^^ s[a]) 16)
  let s := s.set c (s[c] + s[d])
  let s := s.set b (rotateLeft (s[b] ^^^ s[c]) 12)
  let s := s.set a (s[a] + s[b])
  let s := s.set d (rotateLeft (s[d] ^^^ s[a]) 8)
  let s := s.set c (s[c] + s[d])
  s.set b (rotateLeft (s[b] ^^^ s[c]) 7)

/-- Mixes the columns of a block and then its diagonals. -/
def doubleRound (s : Block) : Block :=
  let s := quarterRound s 0 4 8 12
  let s := quarterRound s 1 5 9 13
  let s := quarterRound s 2 6 10 14
  let s := quarterRound s 3 7 11 15
  let s := quarterRound s 0 5 10 15
  let s := quarterRound s 1 6 11 12
  let s := quarterRound s 2 7 8 13
  quarterRound s 3 4 9 14

/-- Applies a function a number of times. -/
def iterate {α : Type} (f : α → α) : Nat → α → α
  | 0, a => a
  | n + 1, a => iterate f n (f a)

/-- The key: eight words. -/
abbrev Key := Vector UInt32 8

/-- The block with a number before it is mixed: four fixed words, the key, the number, and a zero stream. -/
def startBlock (key : Key) (n : UInt64) : Block :=
  #v[0x61707865, 0x3320646e, 0x79622d32, 0x6b206574, key[0], key[1], key[2], key[3], key[4], key[5], key[6],
    key[7], n.toUInt32, (n >>> 32).toUInt32, 0, 0]

/-- The mixed block with a number: six double rounds, added to the block that they started from. -/
def block (key : Key) (n : UInt64) : Block :=
  let start := startBlock key n
  Vector.zipWith (· + ·) (iterate doubleRound 6 start) start

/-- One step of the generator that stretches a seed to a key. -/
def stretch (state : UInt64) : UInt64 := state * 6364136223846793005 + 11634580027462260723

/-- The word that a state of that generator gives. -/
def stretchedWord (state : UInt64) : UInt32 :=
  let w := (((state >>> 18) ^^^ state) >>> 27).toUInt32
  let turn := (state >>> 59).toUInt32
  (w >>> turn) ||| (w <<< ((32 - turn) % 32))

/-- The key of a seed. -/
def keyOfSeed (seed : UInt64) : Key := Vector.ofFn fun i => stretchedWord (iterate stretch (i + 1) seed)

/-- A place in the stream of words. -/
structure Generator where
  key : Key
  position : Nat := 0

/-- The start of the stream of a seed. -/
def Generator.ofSeed (seed : UInt64) : Generator := ⟨keyOfSeed seed, 0⟩

/-- The next word. -/
def Generator.next (g : Generator) : UInt32 × Generator :=
  let words := block g.key (UInt64.ofNat (g.position / 16))
  (words[g.position % 16], { g with position := g.position + 1 })

/-! ## Numbers -/

/-- The distance from one to the next single. -/
def epsilon : Float32 := Float32.ofBits 0x34000000

/-- A number from `epsilon` up to but not including one. -/
def uniformAboveZero (w : UInt32) : Float32 :=
  (Float32.ofBits (w >>> 9 ||| 0x3f800000) - 1.0) * (1.0 - epsilon) + epsilon

/-- A number from zero up to but not including one. -/
def uniform (w : UInt32) : Float32 := (w >>> 8).toFloat32 * Float32.ofBits 0x33800000

/-- Twice pi in single precision. -/
def fullTurn : Float32 := 2.0 * Float32.ofBits 0x40490fdb

/-- The normal number of two words. -/
def normalOf (a b : UInt32) : Single :=
  let radius := Float32.sqrt (-2.0 * Float32.log (uniformAboveZero a))
  .ofFloat32 (radius * Float32.cos (fullTurn * uniform b))

/-- The next `n` normal numbers. -/
def normals : Nat → Generator → List Single × Generator
  | 0, g => ([], g)
  | n + 1, g =>
    let (a, g) := g.next
    let (b, g) := g.next
    let (rest, g) := normals n g
    (normalOf a b :: rest, g)

/-- Normal data for a tensor; integers are zeros. -/
def storage (info : TensorInfo) (g : Generator) : Outcome (Storage × Generator) := do
  let n ← info.counted
  if info.dtype.isFloat then
    let (values, g) := normals n g
    return (.f32 values, g)
  else return (← Storage.zeros info.dtype n, g)

end TensorGraph.Random
