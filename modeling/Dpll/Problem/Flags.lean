import Dpll.Problem.Query

namespace Dpll

namespace Sighting

/-- Notes those of the literals which have no value, unless there is no place for one of them. -/
def noteFree (v : Valuation) (seen : Array Sighting) : List Literal → Option (Array Sighting)
  | [] => some seen
  | l :: ls =>
    if (v.value l.atom).isNone then
      if l.atom < seen.size then noteFree v (seen.modify l.atom (·.note l.positive)) ls else none
    else noteFree v seen ls

end Sighting

namespace ClauseStore

def noteFrom (v : Valuation) (time : Nat) (seen : Array Sighting) (s : ClauseStore) :
    List Nat → Option (Array Sighting × ClauseStore)
  | [] => some (seen, s)
  | i :: rest =>
    match s.examine v time i with
    | (none, s) => noteFrom v time seen s rest
    | (some (_, .satisfied), s) => noteFrom v time seen s rest
    | (some (c, _), s) =>
      match Sighting.noteFree v seen c with
      | none => none
      | some seen => noteFrom v time seen s rest

end ClauseStore

/-- `pureLiterals` with flags which are kept from one scan to the next, and are wiped before each. There
is no answer if some literal has no place among them. -/
def Problem.pureLiteralsBy {ρ : Type} (flags : Array Sighting) (p : Problem ρ) :
    Option (List Literal × Problem ρ × Array Sighting) :=
  match p.store.noteFrom p.valuation p.latest (flags.map fun _ ↦ {}) (List.range p.store.count) with
  | none => none
  | some (seen, store) =>
    some (Atom.collect seen.size fun a ↦ (seen.getD a {}).only?.map (Literal.ofAtom a),
      { p with store }, seen)

end Dpll
