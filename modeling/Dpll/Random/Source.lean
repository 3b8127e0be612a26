namespace Dpll

class RandomSource (ρ : Type) where
  next : ρ → UInt32 × ρ

namespace RandomSource

variable {ρ : Type} [RandomSource ρ]

/-- A word of 64 bits, with its low half drawn first. -/
def next64 (r : ρ) : UInt64 × ρ :=
  let (low, r) := next r
  let (high, r) := next r
  (low.toUInt64 ||| high.toUInt64 <<< 32, r)

def skip : Nat → ρ → ρ
  | 0, r => r
  | n + 1, r => skip n (next r).2

def leastBytes (word : UInt64) (n : Nat) : List UInt8 :=
  (List.range n).map fun i ↦ (word >>> (8 * i).toUInt64).toUInt8

/-- As many bytes as asked for. They come from words of 64 bits, unless no more than four are left,
which come from a word of 32 bits. -/
def fill (n : Nat) (r : ρ) : List UInt8 × ρ :=
  if n = 0 then ([], r)
  else if n ≤ 4 then
    let (word, r) := next r
    (leastBytes word.toUInt64 n, r)
  else
    let (word, r) := next64 r
    let (rest, r) := fill (n - 8) r
    (leastBytes word (min n 8) ++ rest, r)
termination_by n

end RandomSource

/-- A source which gives the words of a list, and then zeros. -/
structure Script where
  words : List UInt32

instance : RandomSource Script where
  next s :=
    match s.words with
    | [] => (0, s)
    | w :: rest => (w, ⟨rest⟩)

end Dpll
