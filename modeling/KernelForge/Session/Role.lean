/-!
# Roles

A kernel runs on one of the three cores of a tile: two move data, one computes.
-/
namespace KernelForge

inductive CoreClass
  | dataMovement
  | compute
  deriving DecidableEq

inductive Role
  | brisc
  | ncrisc
  | crisc
  deriving DecidableEq

namespace Role

def all : List Role := [brisc, ncrisc, crisc]

def name : Role → String
  | brisc => "brisc"
  | ncrisc => "ncrisc"
  | crisc => "crisc"

def coreClass : Role → CoreClass
  | brisc | ncrisc => .dataMovement
  | crisc => .compute

def ofName? (s : String) : Option Role := all.find? fun r => r.name == s

theorem ofName?_name (r : Role) : ofName? r.name = some r := by cases r <;> decide

end Role

end KernelForge
