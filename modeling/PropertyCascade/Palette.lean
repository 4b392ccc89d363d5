import PropertyCascade.Text.Basic

/-!
# Palettes

The colours of plain output, as control sequences around headers and keys. A palette that is not
enabled leaves every text alone.
-/

namespace PropertyCascade

/-- Whether headers and keys are painted. -/
structure Palette where
  enabled : Bool
  deriving DecidableEq, Repr

namespace Palette

/-- The control sequence with given parameters. -/
def sequence (parameters : Text) : Text :=
  '\x1b' :: '[' :: parameters ++ ['m']

/-- Bold cyan. -/
def headerColour : Text := sequence ['1', ';', '3', '6']

/-- Yellow. -/
def keyColour : Text := sequence ['3', '3']

/-- Back to the default colour. -/
def reset : Text := sequence ['0']

/-- A text between a colour and the reset. -/
def paint (palette : Palette) (colour content : Text) : Text :=
  if palette.enabled then colour ++ content ++ reset else content

/-- The line above the properties of a file. -/
def header (palette : Palette) (path : Text) : Text :=
  palette.paint headerColour ('[' :: path ++ [']'])

/-- A property key. -/
def key (palette : Palette) (name : Text) : Text :=
  palette.paint keyColour name

/-- Whether to use colours: the option against them comes first, then the one for them, and without
either the surroundings decide. -/
def useColours (forced refused surroundings : Bool) : Bool :=
  !refused && (forced || surroundings)

end Palette

end PropertyCascade
