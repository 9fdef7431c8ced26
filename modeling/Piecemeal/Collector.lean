/-
# Collectors

A collector folds the elements of a repetition into a result: it supplies an empty container, told
how many elements to expect if that is known, takes in one element after another together with its
index, and finishes the container.
-/
import Std.Data.HashMap
import Std.Data.HashSet

namespace Piecemeal

/-- A way to fold elements of type `ε` into a result of type `ρ`. -/
structure Collector (ε ρ : Type) : Type 1 where
  /-- What holds the elements taken in so far. -/
  Container : Type
  /-- An empty container, given the number of elements if it is known. -/
  supply : Option Nat → Container
  /-- Takes in an element with its index. -/
  accumulate : Container → ε → Nat → Container
  finish : Container → ρ

namespace Collector

variable {ε ρ κ ν : Type}

def describe (_ : Collector ε ρ) : String := "Collector \x7b .. \x7d"

/-- The elements, in order. -/
def toList : Collector ε (List ε) where
  -- the elements, latest first
  Container := List ε
  supply _ := []
  accumulate elements element _ := element :: elements
  finish elements := elements.reverse

/-- The distinct elements. -/
def toHashSet [BEq ε] [Hashable ε] : Collector ε (Std.HashSet ε) where
  Container := Std.HashSet ε
  supply _ := ∅
  accumulate elements element _ := elements.insert element
  finish elements := elements

/-- The values by their keys.  Of several values for one key the last is kept. -/
def toHashMap [BEq κ] [Hashable κ] : Collector (κ × ν) (Std.HashMap κ ν) where
  Container := Std.HashMap κ ν
  supply _ := ∅
  accumulate values entry _ := values.insert entry.1 entry.2
  finish values := values

/-- The number of elements. -/
def counting : Collector ε Nat where
  Container := Nat
  supply _ := 0
  accumulate count _ _ := count + 1
  finish count := count

/-- Transforms the result. -/
def map (f : ρ → ν) (c : Collector ε ρ) : Collector ε ν where
  Container := c.Container
  supply := c.supply
  accumulate := c.accumulate
  finish container := f (c.finish container)

/-- Transforms each element before it is taken in. -/
def contramap (f : ν → ε) (c : Collector ε ρ) : Collector ν ρ where
  Container := c.Container
  supply := c.supply
  accumulate container element index := c.accumulate container (f element) index
  finish := c.finish

/-- The whole fold: what the collector makes of a list of elements, indexed from zero. -/
def collect (c : Collector ε ρ) (expected : Option Nat) (elements : List ε) : ρ :=
  c.finish <| elements.zipIdx.foldl (fun container e => c.accumulate container e.1 e.2)
    (c.supply expected)

end Collector

end Piecemeal
