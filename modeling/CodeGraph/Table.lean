/-!
# Tables over vertices

One entry for each of `n` vertices. A table stands for the function `Table.get`
from vertices to entries: `ofFn` stores a function and `set` changes it at one
vertex.
-/

namespace CodeGraph

abbrev Table (n : Nat) (α : Type) := Vector α n

namespace Table

variable {n : Nat} {α : Type}

theorem get_ofFn (f : Fin n → α) (v : Fin n) : (Vector.ofFn f).get v = f v := by
  show (Vector.ofFn f)[v.val] = f v
  simp

theorem get_replicate (x : α) (v : Fin n) : (Vector.replicate n x).get v = x := by
  show (Vector.replicate n x)[v.val] = x
  simp

def set (table : Table n α) (v : Fin n) (x : α) : Table n α :=
  Vector.set table v.val x v.isLt

theorem get_set (table : Table n α) (v w : Fin n) (x : α) :
    (table.set v x).get w = if v = w then x else table.get w := by
  show (Vector.set table v.val x v.isLt)[w.val] = _
  rw [Vector.getElem_set]
  simp only [Fin.ext_iff]
  rfl

end Table

end CodeGraph
