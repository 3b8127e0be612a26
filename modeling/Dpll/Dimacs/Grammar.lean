import Dpll.ClauseSource
import Dpll.Dimacs.Line
import Mathlib.Algebra.Group.Int.Defs
import Mathlib.Algebra.Group.Nat.Defs

namespace Dpll.Dimacs

def lines : Bytes → List Bytes
  | [] => []
  | b :: bs =>
    if b = newline then [b] :: lines bs
    else
      match lines bs with
      | [] => [[b]]
      | line :: rest => (b :: line) :: rest

/-- One or more digits which write a number. There may be zeros before it. -/
structure Numeral (n : Nat) (bs : Bytes) : Prop where
  ne_nil : bs ≠ []
  digits : ∀ b ∈ bs, isDigit b
  value : Decimal.value (bs.map digitValue) = n

inductive LineEnd : Bytes → Prop
  | none : LineEnd []
  | newline : LineEnd [newline]
  | carriage : LineEnd [byte '\r']
  | carriageNewline : LineEnd [byte '\r', Dimacs.newline]

inductive HeaderLine : Header → Bytes → Prop
  | counts {n m : Nat} {ns ms ending : Bytes} (hn : Numeral n ns) (hm : Numeral m ms)
    (he : LineEnd ending) (hn' : n ≤ 2 ^ 31 - 1) (hm' : m ≤ 2 ^ 64 - 1) :
    HeaderLine ⟨n, m⟩ ("p cnf ".toList.map byte ++ (ns ++ byte ' ' :: (ms ++ ending)))

def minus (negative : Bool) : Bytes := if negative then [byte '-'] else []

inductive ClauseLine : Clause → Bytes → Prop
  | zero {zeros ending : Bytes} (negative : Bool) (hz : zeros ≠ [])
    (h : ∀ b ∈ zeros, b = byte '0') (he : LineEnd ending) :
    ClauseLine [] (minus negative ++ (zeros ++ ending))
  | literal {l : Int} {c : Clause} {digits line : Bytes} (h : l ≠ 0)
    (hl : -2 ^ 31 ≤ l ∧ l ≤ 2 ^ 31 - 1) (hd : Numeral l.natAbs digits) (hc : ClauseLine c line) :
    ClauseLine (l :: c) (minus (decide (l < 0)) ++ (digits ++ byte ' ' :: line))

def Comment (line : Bytes) : Prop := line.head? = some (byte 'c')

def Cutoff (line : Bytes) : Prop := line.head? = some (byte '%')

instance (line : Bytes) : Decidable (Comment line) :=
  inferInstanceAs (Decidable (line.head? = some (byte 'c')))

instance (line : Bytes) : Decidable (Cutoff line) :=
  inferInstanceAs (Decidable (line.head? = some (byte '%')))

/-- The lines of some clauses, in order, with comments between them. -/
inductive Body : List Clause → List Bytes → Prop
  | nil : Body [] []
  | comment {cs : List Clause} {line : Bytes} {rest : List Bytes} (h : Comment line)
    (hr : Body cs rest) : Body cs (line :: rest)
  | clause {c : Clause} {cs : List Clause} {line : Bytes} {rest : List Bytes}
    (h : ClauseLine c line) (hr : Body cs rest) : Body (c :: cs) (line :: rest)

/-- The lines of a text which gives a formula with its header. -/
inductive Document (h : Header) (cs : List Clause) : List Bytes → Prop
  | parts {comments : List Bytes} {header : Bytes} {body trailer : List Bytes}
    (hc : ∀ line ∈ comments, Comment line) (hh : HeaderLine h header) (hb : Body cs body)
    (ht : ∀ line ∈ trailer.head?, Cutoff line) :
    Document h cs (comments ++ header :: (body ++ trailer))

/-- The lines of a text of which that with the given number is the first not allowed, with the clauses
of the lines before it. When there is no header, the number is that of the last line. -/
inductive Malformed : List Clause → Nat → List Bytes → Prop
  | headless {comments : List Bytes} (hc : ∀ line ∈ comments, Comment line) :
    Malformed [] comments.length comments
  | preamble {comments : List Bytes} {line : Bytes} {rest : List Bytes}
    (hc : ∀ line ∈ comments, Comment line) (hn : ¬ Comment line) (hh : ∀ h, ¬ HeaderLine h line) :
    Malformed [] (comments.length + 1) (comments ++ line :: rest)
  | body {h : Header} {cs : List Clause} {comments : List Bytes} {header : Bytes}
    {body : List Bytes} {line : Bytes} {rest : List Bytes} (hc : ∀ line ∈ comments, Comment line)
    (hh : HeaderLine h header) (hb : Body cs body) (hn : ¬ Comment line) (hp : ¬ Cutoff line)
    (hl : ∀ c, ¬ ClauseLine c line) :
    Malformed cs (comments.length + 1 + body.length + 1)
      (comments ++ header :: (body ++ line :: rest))

end Dpll.Dimacs
