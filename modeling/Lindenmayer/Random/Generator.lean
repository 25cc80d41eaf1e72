/-!
# The random generator

Random 64-bit words come from the ChaCha stream cipher with 12 rounds: the key
is expanded from a 64-bit seed or handed out by the system, the counter of 64 bits
starts at zero, and the stream number is zero. Each block of sixteen 32-bit words
gives eight draws, the low half of a draw being the earlier word.

A `Generator` is a value: drawing returns the word and the generator that
continues the stream.
-/

namespace Lindenmayer

namespace ChaCha

/-- The sixteen words that a block is computed from and consists of. -/
abbrev Block := Vector UInt32 16

def rotateLeft (x : UInt32) (n : UInt32) : UInt32 := (x <<< n) ||| (x >>> (32 - n))

def rotateRight (x : UInt32) (n : UInt32) : UInt32 := rotateLeft x ((32 - n) % 32)

/-- The quarter round on the words at `a`, `b`, `c` and `d`. -/
def quarterRound (s : Block) (a b c d : Fin 16) : Block :=
  let xa := s[a] + s[b]
  let xd := rotateLeft (s[d] ^^^ xa) 16
  let xc := s[c] + xd
  let xb := rotateLeft (s[b] ^^^ xc) 12
  let ya := xa + xb
  let yd := rotateLeft (xd ^^^ ya) 8
  let yc := xc + yd
  let yb := rotateLeft (xb ^^^ yc) 7
  (((s.set a ya).set b yb).set c yc).set d yd

/-- Two rounds: the columns of the block, then its diagonals. -/
def doubleRound (s : Block) : Block :=
  let s := quarterRound s 0 4 8 12
  let s := quarterRound s 1 5 9 13
  let s := quarterRound s 2 6 10 14
  let s := quarterRound s 3 7 11 15
  let s := quarterRound s 0 5 10 15
  let s := quarterRound s 1 6 11 12
  let s := quarterRound s 2 7 8 13
  quarterRound s 3 4 9 14

/-- The block with number `counter`: twelve rounds on the constants, the key and
    the counter, added to what they started from. -/
def block (key : Vector UInt32 8) (counter : UInt64) : Block :=
  let start : Block :=
    #v[0x61707865, 0x3320646e, 0x79622d32, 0x6b206574,
       key[0], key[1], key[2], key[3], key[4], key[5], key[6], key[7],
       counter.toUInt32, (counter >>> 32).toUInt32, 0, 0]
  Vector.zipWith (· + ·) (Nat.repeat doubleRound 6 start) start

end ChaCha

/-- The key of a stream. -/
abbrev Key := Vector UInt32 8

/-- What a stream of random words is told by. -/
inductive Seed
  | given (seed : UInt64)
  /-- Without a seed, the system hands out a key, which may be any. -/
  | drawn (key : Key)
  deriving DecidableEq, Repr

/-- One of the keys that the system may hand out. -/
instance : Inhabited Seed := ⟨.drawn (.replicate 8 0)⟩

instance : Coe UInt64 Seed := ⟨.given⟩

instance (n : Nat) : OfNat Seed n := ⟨.given (.ofNat n)⟩

/-- A position in a stream of random words. -/
structure Generator where
  key : Key
  /-- The number of the block that the next draw comes from. -/
  counter : UInt64
  /-- The words of that block. -/
  words : ChaCha.Block
  /-- Which of the eight draws of the block comes next. -/
  next : Fin 8

namespace Generator

/-- The successor in the linear congruential sequence that expands a seed. -/
def expandStep (state : UInt64) : UInt64 :=
  state * 6364136223846793005 + 11634580027462260723

/-- The key word read off a state of that sequence: some of its bits, rotated by
    an amount held in others. -/
def expandWord (state : UInt64) : UInt32 :=
  ChaCha.rotateRight (((state >>> 18) ^^^ state) >>> 27).toUInt32 (state >>> 59).toUInt32

/-- The key that a seed of 64 bits is expanded to. -/
def expand (seed : UInt64) : Key :=
  Vector.ofFn fun i : Fin 8 => expandWord (Nat.repeat expandStep (i.val + 1) seed)

/-- The generator at the start of the stream of a key. -/
def ofKey (key : Key) : Generator := ⟨key, 0, ChaCha.block key 0, 0⟩

/-- The key that a seed stands for. -/
def keyOf : Seed → Key
  | .given seed => expand seed
  | .drawn key => key

/-- The generator at the start of the stream of a seed. -/
def ofSeed (seed : Seed) : Generator := ofKey (keyOf seed)

/-- The next word of the stream. -/
def word (g : Generator) : UInt64 :=
  let low := g.words[2 * g.next.val]
  let high := g.words[2 * g.next.val + 1]
  low.toUInt64 ||| (high.toUInt64 <<< 32)

/-- The generator after one draw. -/
def advance (g : Generator) : Generator :=
  if g.next = 7 then
    let counter := g.counter + 1
    { g with counter, words := ChaCha.block g.key counter, next := 0 }
  else
    { g with next := g.next + 1 }

/-- One draw. -/
def draw (g : Generator) : UInt64 × Generator := (g.word, g.advance)

/-- The number of draws after which a stream repeats: eight from each block, and
    a block for each value of the counter. -/
def period : Nat := 8 * UInt64.size

end Generator

end Lindenmayer
