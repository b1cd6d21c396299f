import ModelFormula.Term.Basic

/-! # Expanding a crossing

A crossing stands for the interactions of all non-empty selections of its operands, by size and
then in lexicographic order of the selected positions. A selection is a strictly increasing list
of positions.
-/

namespace ModelFormula

/-- The selections of `k` positions among `start, …, start + n - 1`, in lexicographic order. -/
def selectionsFrom : Nat → Nat → Nat → List (List Nat)
  | _, _, 0 => [[]]
  | _, 0, _ + 1 => []
  | start, n + 1, k + 1 =>
    (selectionsFrom (start + 1) n k).map (start :: ·) ++ selectionsFrom (start + 1) n (k + 1)

def selections (n k : Nat) : List (List Nat) :=
  if k = 0 then [] else selectionsFrom 0 n k

namespace Term

def pick (operands : List Term) (selection : List Nat) : List Term :=
  selection.filterMap (operands[·]?)

/-- The interactions of all selections of the operands, smaller selections first; of equal terms
only the first is kept. -/
def crossingTerms (operands : List Term) : List Term :=
  ((List.range' 1 operands.length).flatMap fun size =>
    (selections operands.length size).map fun selection =>
      interactionOf (pick operands selection)).eraseDups

def summands : Term → List Term
  | .crossing operands => crossingTerms operands
  | term => [term]

end Term

end ModelFormula
