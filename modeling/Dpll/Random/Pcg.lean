import Dpll.Random.Source

namespace Dpll

structure Pcg where
  state : UInt64 := 0
  increment : UInt64 := 0
  deriving DecidableEq

namespace Pcg

def multiplier : UInt64 := 6364136223846793005

def seedIncrement : UInt64 := 3215534235932367344

def ofSeed (seed : UInt64) : Pcg := ⟨seed + seedIncrement, seedIncrement⟩

def rotateRight (word turn : UInt32) : UInt32 := word >>> turn ||| word <<< (32 - turn)

def output (state : UInt64) : UInt32 :=
  rotateRight (((state >>> 18) ^^^ state) >>> 27).toUInt32 (state >>> 59).toUInt32

def step (g : Pcg) : Pcg := { g with state := g.state * multiplier + g.increment }

instance : RandomSource Pcg where
  next g := (output g.state, g.step)

end Pcg

end Dpll
