import PlanarLP.Constraint

/-! Points of a region together with the constraints whose boundary passes through them. -/

namespace PlanarLP

/-- Put an index into an ascending list that may already hold it. -/
def insertIndex (i : Nat) : List Nat → List Nat
  | [] => [i]
  | j :: js =>
    if i < j then i :: j :: js else if i = j then j :: js else j :: insertIndex i js

theorem mem_insertIndex {i k : Nat} {js : List Nat} :
    k ∈ insertIndex i js ↔ k = i ∨ k ∈ js := by
  induction js with
  | nil => simp [insertIndex]
  | cons j js ih =>
    unfold insertIndex
    split
    · simp
    · split
      · rename_i h
        simp [h]
      · simp only [List.mem_cons, ih]
        exact or_left_comm

theorem insertIndex_ascending {i : Nat} {js : List Nat} (h : js.Pairwise (· < ·)) :
    (insertIndex i js).Pairwise (· < ·) := by
  induction js with
  | nil => simp [insertIndex]
  | cons j js ih =>
    obtain ⟨hj, hjs⟩ := List.pairwise_cons.mp h
    unfold insertIndex
    split
    · rename_i hij
      refine List.pairwise_cons.mpr ⟨fun k hk => ?_, h⟩
      rcases List.mem_cons.mp hk with rfl | hk
      · exact hij
      · exact Nat.lt_trans hij (hj k hk)
    · split
      · exact h
      · refine List.pairwise_cons.mpr ⟨fun k hk => ?_, ih hjs⟩
        rcases mem_insertIndex.mp hk with rfl | hk
        · omega
        · exact hj k hk

/-- The union of two ascending lists, ascending. -/
def unionIndices (is js : List Nat) : List Nat := is.foldr insertIndex js

theorem mem_unionIndices {k : Nat} {is js : List Nat} :
    k ∈ unionIndices is js ↔ k ∈ is ∨ k ∈ js := by
  induction is with
  | nil => simp [unionIndices]
  | cons i is ih =>
    have h : unionIndices (i :: is) js = insertIndex i (unionIndices is js) := rfl
    rw [h, mem_insertIndex, ih, List.mem_cons, or_assoc]

theorem unionIndices_ascending {is js : List Nat} (h : js.Pairwise (· < ·)) :
    (unionIndices is js).Pairwise (· < ·) := by
  induction is with
  | nil => exact h
  | cons i is ih => exact insertIndex_ascending ih

structure Vertex (α : Type) where
  x : α
  y : α
  /-- Indices of the constraints that are tight here, ascending. -/
  tight : List Nat
  /-- Whether more than two constraints are tight here. -/
  degenerate : Bool
deriving DecidableEq

namespace Vertex

variable {α : Type}

def position (v : Vertex α) : Vec α := ⟨v.x, v.y⟩

variable [Scalar α]

/-- The vertex at `p`. Adding zero turns a negative zero into the positive one. -/
def atPoint (p : Vec α) (tight : List Nat) : Vertex α :=
  ⟨p.x + 0, p.y + 0, tight, 2 < tight.length⟩

/-- The same point with more constraints tight. -/
def merge (v : Vertex α) (tight : List Nat) : Vertex α :=
  let all := unionIndices v.tight tight
  ⟨v.x, v.y, all, 2 < all.length⟩

end Vertex

variable {α : Type} [Scalar α]

/-- Whether every constraint allows `p`. -/
def allows (tol : Tolerance α) (cs : List (Constraint α)) (p : Vec α) : Bool :=
  cs.all fun k => k.isSatisfied tol p

/-- The indices of the constraints that are tight at `p`, ascending. -/
def tightAt (tol : Tolerance α) (cs : List (Constraint α)) (p : Vec α) : List Nat :=
  (cs.zipIdx.filter fun (k, _) => k.isTight tol p).map Prod.snd

/-- The vertex at `p` with the constraints that are tight there. -/
def vertexAt (tol : Tolerance α) (cs : List (Constraint α)) (p : Vec α) : Vertex α :=
  .atPoint p (tightAt tol cs p)

end PlanarLP
