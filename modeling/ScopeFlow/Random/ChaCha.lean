/-!
# The twelve-round ChaCha stream

A seed of 64 bits is stretched to a key of eight words, and the key to an
unbounded stream of 32-bit words, block after block of sixteen. The state of
the cipher is held as four rows of four words, so that one step of a round
works on all four columns at once and the diagonals of the second half are
reached by turning the rows.

* `streamWord seed n` is word `n` of the stream of `seed`; it depends on
  nothing else, so two readers at one position of one seed's stream agree on
  all that follows.
-/

namespace ScopeFlow.Random

/-- Four words side by side. -/
structure Row where
  a : UInt32
  b : UInt32
  c : UInt32
  d : UInt32
deriving DecidableEq

namespace Row

/-- Word by word sum modulo `2 ^ 32`. -/
def add (x y : Row) : Row := ⟨x.a + y.a, x.b + y.b, x.c + y.c, x.d + y.d⟩

/-- Word by word exclusive or. -/
def xor (x y : Row) : Row := ⟨x.a ^^^ y.a, x.b ^^^ y.b, x.c ^^^ y.c, x.d ^^^ y.d⟩

/-- The words of a row from left to right. -/
def words (x : Row) : List UInt32 := [x.a, x.b, x.c, x.d]

/-- The row turned left by one word. -/
def turn (x : Row) : Row := ⟨x.b, x.c, x.d, x.a⟩

end Row

/-- A word with its bits turned left by `n` places, `0 < n < 32`. -/
def rotateLeft (x n : UInt32) : UInt32 := (x <<< n) ||| (x >>> (32 - n))

/-- A word with its bits turned right by `n` places. -/
def rotateRight (x n : UInt32) : UInt32 := (x >>> n) ||| (x <<< (32 - n))

/-- Every word of a row with its bits turned left by `n` places. -/
def Row.rotate (x : Row) (n : UInt32) : Row :=
  ⟨rotateLeft x.a n, rotateLeft x.b n, rotateLeft x.c n, rotateLeft x.d n⟩

/-- The sixteen words of the cipher as four rows. -/
structure Block where
  first : Row
  second : Row
  third : Row
  fourth : Row
deriving DecidableEq

namespace Block

/-- The four quarter rounds of the columns. -/
def columns (x : Block) : Block :=
  let a := x.first.add x.second
  let d := (x.fourth.xor a).rotate 16
  let c := x.third.add d
  let b := (x.second.xor c).rotate 12
  let a := a.add b
  let d := (d.xor a).rotate 8
  let c := c.add d
  let b := (b.xor c).rotate 7
  ⟨a, b, c, d⟩

/-- The diagonals moved into the columns. -/
def slant (x : Block) : Block :=
  ⟨x.first, x.second.turn, x.third.turn.turn, x.fourth.turn.turn.turn⟩

/-- The columns moved back to the diagonals. -/
def unslant (x : Block) : Block :=
  ⟨x.first, x.second.turn.turn.turn, x.third.turn.turn, x.fourth.turn⟩

/-- A round on the columns and a round on the diagonals. -/
def doubleRound (x : Block) : Block := x.columns.slant.columns.unslant

/-- `n` double rounds. -/
def doubleRounds : Nat → Block → Block
  | 0, x => x
  | n + 1, x => doubleRounds n x.doubleRound

/-- Word by word sum. -/
def add (x y : Block) : Block :=
  ⟨x.first.add y.first, x.second.add y.second, x.third.add y.third, x.fourth.add y.fourth⟩

/-- The sixteen words in order. -/
def words (x : Block) : List UInt32 :=
  x.first.words ++ x.second.words ++ x.third.words ++ x.fourth.words

end Block

/-- The 64-bit congruential step that stretches a seed. -/
def stretch (state : UInt64) : UInt64 := state * 6364136223846793005 + 11634580027462260723

/-- The word read off a stretched state: its high bits folded over one
another, then turned by its five topmost bits. -/
def keyWord (state : UInt64) : UInt32 :=
  rotateRight (((state >>> 18) ^^^ state) >>> 27).toUInt32 (state >>> 59).toUInt32

/-- The two rows of the key of a seed. -/
def keyRows (seed : UInt64) : Row × Row :=
  let s₁ := stretch seed
  let s₂ := stretch s₁
  let s₃ := stretch s₂
  let s₄ := stretch s₃
  let s₅ := stretch s₄
  let s₆ := stretch s₅
  let s₇ := stretch s₆
  let s₈ := stretch s₇
  (⟨keyWord s₁, keyWord s₂, keyWord s₃, keyWord s₄⟩,
    ⟨keyWord s₅, keyWord s₆, keyWord s₇, keyWord s₈⟩)

/-- The state of block `n` before the rounds: the cipher's constants, the key,
and the block counter with a nonce of zero. -/
def startBlock (seed : UInt64) (n : Nat) : Block :=
  let key := keyRows seed
  ⟨⟨0x61707865, 0x3320646e, 0x79622d32, 0x6b206574⟩, key.1, key.2,
    ⟨n.toUInt32, (n >>> 32).toUInt32, 0, 0⟩⟩

/-- Block `n` of the stream: twelve rounds, added to where they started. -/
def streamBlock (seed : UInt64) (n : Nat) : Block :=
  let start := startBlock seed n
  (start.doubleRounds 6).add start

/-- Word `n` of the stream of `seed`. -/
def streamWord (seed : UInt64) (n : Nat) : UInt32 :=
  (streamBlock seed (n / 16)).words.getD (n % 16) 0

end ScopeFlow.Random
