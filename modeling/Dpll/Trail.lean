import Dpll.Literal

namespace Dpll

/-- The literals made true, in order. A level begins with each decision, and holds what was made
true until the next. -/
structure Trail where
  literals : Array Literal := #[]
  levelStarts : Array Nat := #[]

namespace Trail

def withRoom (n : Nat) : Trail := ⟨.emptyWithCapacity n, .emptyWithCapacity n⟩

def push (t : Trail) (l : Literal) : Trail := { t with literals := t.literals.push l }

def openLevel (t : Trail) : Trail := { t with levelStarts := t.levelStarts.push t.literals.size }

def level (t : Trail) : Nat := t.levelStarts.size

def depth (t : Trail) : Nat := t.literals.size

def decided (t : Trail) : Bool := !t.levelStarts.isEmpty

def closeLevel (t : Trail) : Option (List Literal × Trail) :=
  t.levelStarts.back?.map fun start ↦
    ((t.literals.extract start t.literals.size).toList,
      ⟨t.literals.shrink start, t.levelStarts.pop⟩)

end Trail

end Dpll
