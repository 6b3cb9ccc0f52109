import ScopeFlow.Random.ChaCha

/-!
# Random sources

A random source is a seed, the number of draws it has served, and its place
in the stream of its seed. Draws differ in how many words of the stream they
take, so the place is not determined by the count.

* `Source.serve` answers a list of calls one after another;
* `Source.same` is the equality that values use: seed and count of draws,
  the place in the stream left aside.
-/

namespace ScopeFlow.Random

/-- A seeded source of random numbers. -/
structure Source where
  seed : UInt64
  /-- Draws served since the stream was last started. -/
  draws : Nat
  /-- Words taken from the stream so far. -/
  position : Nat
deriving DecidableEq

/-- What can be asked of a source. -/
inductive Call where
  /-- One word of the stream. -/
  | word
  /-- Two words of the stream, the low half first. -/
  | doubleWord
  /-- `count` bytes. -/
  | bytes (count : Nat)
  /-- Start the stream again. -/
  | reset
  | draws
  | seed
deriving DecidableEq

/-- What a source answers. -/
inductive Answer where
  | word (w : UInt32)
  | doubleWord (w : UInt64)
  | bytes (bs : List UInt8)
  /-- A restart says nothing. -/
  | nothing
  | draws (n : Nat)
  | seed (s : UInt64)
deriving DecidableEq

namespace Source

/-- A source at the start of the stream of `seed`. -/
def ofSeed (seed : UInt64) : Source := ⟨seed, 0, 0⟩

/-- The source started again from its own seed. -/
def reset (r : Source) : Source := ofSeed r.seed

/-- The next `n` words of the stream. -/
def upcoming (r : Source) (n : Nat) : List UInt32 :=
  (List.range n).map fun i => streamWord r.seed (r.position + i)

/-- The source after a draw that took `n` words. -/
def advance (r : Source) (n : Nat) : Source :=
  ⟨r.seed, r.draws + 1, r.position + n⟩

/-- Draws one word. -/
def nextWord (r : Source) : UInt32 × Source :=
  (streamWord r.seed r.position, r.advance 1)

/-- Draws two words, the low half first. -/
def nextDoubleWord (r : Source) : UInt64 × Source :=
  let low := streamWord r.seed r.position
  let high := streamWord r.seed (r.position + 1)
  (high.toUInt64 <<< 32 ||| low.toUInt64, r.advance 2)

/-- The four bytes of a word, lowest first. -/
def littleEndian (w : UInt32) : List UInt8 :=
  [w.toUInt8, (w >>> 8).toUInt8, (w >>> 16).toUInt8, (w >>> 24).toUInt8]

/-- Draws `n` bytes: as many whole words as they need, the rest of the last
word is lost. -/
def nextBytes (r : Source) (n : Nat) : List UInt8 × Source :=
  let k := (n + 3) / 4
  (((r.upcoming k).flatMap littleEndian).take n, r.advance k)

/-- Answers one call. -/
def answer (r : Source) : Call → Answer × Source
  | .word => let (w, r') := r.nextWord; (.word w, r')
  | .doubleWord => let (w, r') := r.nextDoubleWord; (.doubleWord w, r')
  | .bytes n => let (bs, r') := r.nextBytes n; (.bytes bs, r')
  | .reset => (.nothing, r.reset)
  | .draws => (.draws r.draws, r)
  | .seed => (.seed r.seed, r)

/-- Answers a list of calls from left to right. -/
def serve (r : Source) : List Call → List Answer × Source
  | [] => ([], r)
  | c :: cs =>
    let (a, r') := r.answer c
    let (as, r'') := r'.serve cs
    (a :: as, r'')

/-- Equality of sources as values: the same seed and as many draws. -/
def same (r r' : Source) : Bool := r.seed == r'.seed && r.draws == r'.draws

end Source

end ScopeFlow.Random
