/-! Emphasis of terminal text by control sequences. -/

namespace Inhabit

structure Style where
  attributes : List Nat
  deriving DecidableEq, Repr, Inhabited

namespace Style

def bold : Style := ⟨[1]⟩

def boldRed : Style := ⟨[1, 31]⟩

def start (style : Style) : String :=
  "\x1b[" ++ ";".intercalate (style.attributes.map toString) ++ "m"

def stop : String := "\x1b[0m"

/-- Text in a style. Where the text itself switches attributes off, the style is
taken up again. -/
def paint (style : Style) (text : String) : String :=
  style.start ++ text.replace stop (stop ++ style.start) ++ stop

def paintIf (colors : Bool) (style : Style) (text : String) : String :=
  if colors then style.paint text else text

end Style

end Inhabit
