/-! A supply of names. A name is a stem that tells what it is for, followed by a
number that is used once, whatever the stem. -/

namespace Inhabit

structure NameSupply where
  /-- How many names have been handed out. -/
  issued : Nat := 0
  deriving DecidableEq, Repr, Inhabited

abbrev Naming := StateM NameSupply

namespace Stem

def typeVar : String := "_a"

def unknown : String := "_u"

def argument : String := "_x"

def ghost : String := "_g"

def guard : String := "_c"

def caseBinder : String := "_z"

def recursiveCall : String := "_f"

end Stem

def freshName (stem : String) : Naming String := fun supply =>
  (stem ++ toString supply.issued, ⟨supply.issued + 1⟩)

example : (["_a", "_g"].mapM freshName).run ⟨3⟩ = (["_a3", "_g4"], ⟨5⟩) := rfl

end Inhabit
