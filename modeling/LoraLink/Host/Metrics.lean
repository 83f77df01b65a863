import Mathlib.Tactic.Common

/-!
# The metrics registry

`Metrics` of `metrics.py`: named values, zero until they are first set. The names are the constructors of a type `N`
that each user of the registry declares.
-/

namespace LoraLink.Host

variable {N : Type}

/-- The values of the names of one user. -/
def Metrics (N : Type) : Type := N → Int

namespace Metrics

def empty : Metrics N := fun _ => 0

variable [DecidableEq N]

def add (m : Metrics N) (name : N) (amount : Int := 1) : Metrics N :=
  fun n => if n = name then m n + amount else m n

def set (m : Metrics N) (name : N) (value : Int) : Metrics N := fun n => if n = name then value else m n

theorem add_apply (m : Metrics N) (name n : N) (amount : Int) :
    m.add name amount n = if n = name then m n + amount else m n := rfl

theorem set_apply (m : Metrics N) (name n : N) (value : Int) :
    m.set name value n = if n = name then value else m n := rfl

end Metrics

end LoraLink.Host
