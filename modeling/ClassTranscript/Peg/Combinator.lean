import ClassTranscript.Peg.Expr

/-!
# Writing expressions

Short forms for the expressions that grammars are full of. A text stands for itself as a literal,
and a character for the class of that one character.
-/

namespace ClassTranscript.Peg

instance : Coe String Expr :=
  ⟨.literal⟩

instance : Coe Char Expr :=
  ⟨fun c => .char (.only c)⟩

namespace Expr

/-- One of the characters of a text. -/
def oneOf (set : String) : Expr :=
  .char (.anyOf set.toList)

/-- A character that is none of those of a text. -/
def noneOf (set : String) : Expr :=
  .char (.noneOf set.toList)

/-- A character from `lo` to `hi`. -/
def range (lo hi : Char) : Expr :=
  .char (.range lo hi)

/-- The first of some texts that the input goes on with. -/
def words (texts : List String) : Expr :=
  .choice (texts.map .literal)

/-- Calls of the rules of some names. -/
def rules (names : List String) : List Expr :=
  names.map .rule

/-- One or more of an item, with a separator between each two: the parts of a sequence. -/
def separated (item separator : Expr) : List Expr :=
  [item, .star (.seq [separator, item])]

end Expr

end ClassTranscript.Peg
