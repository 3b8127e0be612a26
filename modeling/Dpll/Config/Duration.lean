namespace Dpll

/-- A span of time, in nanoseconds. -/
abbrev Duration := Nat

namespace Duration

def second : Duration := 1000000000

def ofSeconds (s : Nat) : Duration := s * second

def ofParts (seconds nanoseconds : Nat) : Duration := seconds * second + nanoseconds

def seconds (d : Duration) : Nat := d / second

def nanoseconds (d : Duration) : Nat := d % second

/-- The longest span: as many seconds as 64 bits count, and a nanosecond short of another. -/
def longest : Duration := ofParts (UInt64.size - 1) (second - 1)

end Duration

end Dpll
