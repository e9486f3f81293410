/-!
# Wordloom.Rng

Random numbers that a seed determines: a counter is advanced by a fixed odd step and each value
scrambled by an invertible mixing function. All that is random in a run is drawn from one stream.
-/

namespace Wordloom

/-- A stream of random numbers: the seed it began with, its counter, and how many values have been
drawn. -/
structure Rng where
  seed : UInt64
  state : UInt64
  generation : UInt64
deriving DecidableEq

namespace Rng

def ofSeed (seed : UInt64) : Rng := ⟨seed, seed, 0⟩

/-- The step of the counter. -/
def increment : UInt64 := 0x9E3779B97F4A7C15

def mix (z : UInt64) : UInt64 :=
  let z := (z ^^^ (z >>> 30)) * 0xBF58476D1CE4E5B9
  let z := (z ^^^ (z >>> 27)) * 0x94D049BB133111EB
  z ^^^ (z >>> 31)

def next (r : Rng) : UInt64 × Rng :=
  let state := r.state + increment
  (mix state, { r with state := state, generation := r.generation + 1 })

/-- A number from 0 up to, but not including, 1, with 53 random bits. -/
def nextFloat (r : Rng) : Float × Rng :=
  let (x, r) := r.next
  ((x >>> 11).toFloat * (1.0 / 9007199254740992.0), r)

/-- A number below `n`. Nothing is drawn for `n = 0`. -/
def nextBelow (r : Rng) (n : Nat) : Nat × Rng :=
  if n = 0 then (0, r)
  else
    let (x, r) := r.next
    (x.toNat % n, r)

/-- The same number in 128 bits. -/
def wide (n : Int64) : BitVec 128 := n.toBitVec.signExtend 128

/-- A whole number between two bounds, both of them possible, given in either order. There can be
`2 ^ 64` numbers to choose from, so they are counted in 128 bits. -/
def nextBetween (r : Rng) (a b : Int64) : Int64 × Rng :=
  let low := wide (min a b)
  let high := wide (max a b)
  let (x, r) := r.next
  let n := low + x.toBitVec.setWidth 128 % (high - low + 1)
  (.ofBitVec (n.setWidth 64), r)

/-- The sum of the positive weights. -/
def totalWeight (weights : List Float) : Float :=
  (weights.filter fun w => 0 < w).foldl (· + ·) 0

/-- The index of the first weight, not counting those that are not positive, at which the running
sum exceeds the threshold; the last such weight if none does. `i` is the index of the first weight
of the list and `last` the answer so far. -/
def pickFrom (threshold : Float) (i last : Nat) (sum : Float) : List Float → Nat
  | [] => last
  | w :: ws =>
    if w ≤ 0 then pickFrom threshold (i + 1) last sum ws
    else if threshold < sum + w then i
    else pickFrom threshold (i + 1) i (sum + w) ws

/-- An index, each as likely as its weight says. Weights that are not positive are only chosen when
there is no other, or when the sum is no finite number: then every index is equally likely. -/
def weightedChoice (r : Rng) (weights : List Float) : Nat × Rng :=
  let total := totalWeight weights
  if weights.isEmpty || total ≤ 0 || !total.isFinite then r.nextBelow weights.length
  else
    let (x, r) := r.nextFloat
    (pickFrom (x * total) 0 0 0 weights, r)

/-- The next `n` values. -/
def draws : Nat → Rng → List UInt64
  | 0, _ => []
  | n + 1, r =>
    let (x, r) := r.next
    x :: draws n r

end Rng

/-- The 64-bit FNV-1a hash of a text's bytes. -/
def hashText (s : String) : UInt64 :=
  s.toUTF8.data.foldl (fun hash byte => (hash ^^^ byte.toUInt64) * 0x100000001B3) 0xcbf29ce484222325

/-- Seeds to choose from by a key. Runs that use the same key of equal pools get the same stream of
random numbers, whatever their own seeds are. -/
structure SeedPool where
  seeds : Array UInt64
deriving DecidableEq

namespace SeedPool

/-- A pool of `size` seeds, but at least one, drawn from a stream. -/
def ofSeed (seed : UInt64) (size : Nat) : SeedPool :=
  ⟨(Rng.draws (max size 1) (.ofSeed seed)).toArray⟩

def size (p : SeedPool) : Nat := p.seeds.size

/-- The place of a key in the pool. -/
def slot (p : SeedPool) (key : String) : Nat := (hashText key).toNat % p.seeds.size

/-- The stream that belongs to a key. -/
def rngFor (p : SeedPool) (key : String) : Rng := .ofSeed (p.seeds.getD (p.slot key) 0)

end SeedPool

end Wordloom
