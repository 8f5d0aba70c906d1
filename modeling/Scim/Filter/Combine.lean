import Scim.Filter.Keyword

/-!
Joining the terms of one level of a filter. Terms joined by one keyword fold from the right. In a
mixed level every `and` in turn joins the two atoms at its position among the terms, and what is
left is joined by `or`.
-/
namespace Scim.Filter

variable {α : Type} (join : LogicalOp → α → α → α)

def foldRight (op : LogicalOp) (first : α) : List α → α
  | [] => first
  | next :: rest => join op first (foldRight op next rest)

def foldLeft (op : LogicalOp) (first : α) (rest : List α) : α := rest.foldl (join op) first

/-- One operand of the final `or`: a single term, or terms joined by `and`. -/
structure Atom (α : Type) where
  value : α
  isTerm : Bool

/-- Joins the atoms at a position and after it; without two atoms there nothing changes. -/
def joinAt : Nat → List (Atom α) → List (Atom α)
  | 0, left :: right :: rest => ⟨join .and left.value right.value, false⟩ :: rest
  | position + 1, atom :: rest => atom :: joinAt position rest
  | _, atoms => atoms

/-- Every `and` joins the atoms at its own position among the keywords, the first one first. -/
def joinAnds : Nat → List LogicalOp → List (Atom α) → List (Atom α)
  | _, [], atoms => atoms
  | position, .and :: ops, atoms => joinAnds (position + 1) ops (joinAt join position atoms)
  | position, .or :: ops, atoms => joinAnds (position + 1) ops atoms

def trailingTerms (atoms : List (Atom α)) : Nat := (atoms.reverse.takeWhile Atom.isTerm).length

/-- The operands of the final `or`: two or more single terms at the end become one operand, folded
from the right. -/
def orOperands (atoms : List (Atom α)) : List α :=
  let head := atoms.length - trailingTerms atoms
  match (atoms.drop head).map Atom.value with
  | first :: next :: rest =>
    (atoms.take head).map Atom.value ++ [foldRight join .or first (next :: rest)]
  | _ => atoms.map Atom.value

/-- The expression of a level: its first term, and the other terms with the keywords before them. -/
def combine (first : α) (rest : List (LogicalOp × α)) : α :=
  let ops := rest.map Prod.fst
  match ops with
  | [] => first
  | op :: others =>
    if others.all (· == op) then foldRight join op first (rest.map Prod.snd)
    else
      match orOperands join
          (joinAnds join 0 ops ((first :: rest.map Prod.snd).map fun term => ⟨term, true⟩)) with
      | [] => first
      | operand :: operands => foldLeft join .or operand operands

end Scim.Filter
