import PlanarLP.Scalar

/-! Vectors in the plane, as points, normals and directions. -/

namespace PlanarLP

structure Vec (α : Type) where
  x : α
  y : α
deriving DecidableEq

namespace Vec

variable {α : Type} [Scalar α]

def origin : Vec α := ⟨0, 0⟩

instance : Add (Vec α) := ⟨fun u v => ⟨u.x + v.x, u.y + v.y⟩⟩

instance : Sub (Vec α) := ⟨fun u v => ⟨u.x - v.x, u.y - v.y⟩⟩

instance : Neg (Vec α) := ⟨fun v => ⟨-v.x, -v.y⟩⟩

def scale (v : Vec α) (k : α) : Vec α := ⟨v.x * k, v.y * k⟩

def divide (v : Vec α) (k : α) : Vec α := ⟨v.x / k, v.y / k⟩

def dot (u v : Vec α) : α := u.x * v.x + u.y * v.y

/-- Signed area of the parallelogram on `u` and `v`; zero when they are parallel. -/
def cross (u v : Vec α) : α := u.x * v.y - u.y * v.x

def normSq (v : Vec α) : α := v.dot v

def norm (v : Vec α) : α := Scalar.sqrt v.normSq

def normalize (v : Vec α) : Vec α := v.divide v.norm

/-- Angle from the positive x axis. -/
def angle (v : Vec α) : α := Scalar.atan2 v.y v.x

/-- The quarter turn to the left. -/
def turnLeft (v : Vec α) : Vec α := ⟨-v.y, v.x⟩

/-- The quarter turn to the right. -/
def turnRight (v : Vec α) : Vec α := ⟨v.y, -v.x⟩

end Vec

end PlanarLP
