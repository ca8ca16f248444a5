import ClassTranscript.Java.Token

/-!
# Literals of Java

Numbers in their several radixes, characters and strings, and the escapes inside them.
-/

namespace ClassTranscript.Java

open Peg Peg.Expr

/-- A decimal digit. -/
def digit : Expr :=
  range '0' '9'

/-- A hexadecimal digit. -/
def hexDigit : Expr :=
  .choice [range 'a' 'f', range 'A' 'F', range '0' '9']

/-- The letter that may end a floating point number. -/
def floatSuffix : Expr :=
  .optional (oneOf "fFdD")

/-- The literals. -/
def literals : List Definition :=
  [{ name := "Literal"
     body :=
       .seq
         [.choice
            [.rule "FloatLiteral", .rule "IntegerLiteral", .rule "CharLiteral",
             .rule "StringLiteral", word "true", word "false", word "null"],
          .rule "Spacing"] },
   { name := "IntegerLiteral"
     body :=
       .seq
         [.choice (rules ["HexNumeral", "OctalNumeral", "DecimalNumeral"]),
          .optional (oneOf "lL")]
     leaf := true },
   { name := "DecimalNumeral"
     body := .choice ['0', .seq [range '1' '9', .star digit]]
     leaf := true },
   { name := "HexNumeral"
     body := .seq ['0', oneOf "xX", .plus hexDigit]
     leaf := true
     memo := .mismatches },
   { name := "OctalNumeral", body := .seq ['0', .plus (range '0' '7')], leaf := true },
   { name := "FloatLiteral", body := .choice (rules ["HexFloat", "DecimalFloat"]) },
   { name := "DecimalFloat"
     body :=
       .choice
         [.seq [.plus digit, '.', .star digit, .optional (.rule "Exponent"), floatSuffix],
          .seq ['.', .plus digit, .optional (.rule "Exponent"), floatSuffix],
          .seq [.plus digit, .rule "Exponent", floatSuffix],
          .seq [.plus digit, .optional (.rule "Exponent"), oneOf "fFdD"]]
     leaf := true },
   { name := "Exponent", body := .seq [oneOf "eE", .optional (oneOf "+-"), .plus digit] },
   { name := "HexFloat"
     body := .seq [.rule "HexSignificant", .rule "BinaryExponent", floatSuffix]
     leaf := true },
   { name := "HexSignificant"
     body :=
       .choice
         [.seq [.choice ["0x", "0X"], .star hexDigit, '.', .plus hexDigit],
          .seq [.rule "HexNumeral", .optional '.']] },
   { name := "BinaryExponent", body := .seq [oneOf "pP", .optional (oneOf "+-"), .plus digit] },
   { name := "CharLiteral"
     body :=
       .seq ['\x27', .choice [.rule "Escape", .seq [.notAhead (oneOf "'\\"), .any]], '\x27']
     leaf := true },
   { name := "StringLiteral"
     body :=
       .seq
         ['"', .star (.choice [.rule "Escape", .seq [.notAhead (oneOf "\r\n\"\\"), .any]]),
          '"']
     leaf := true },
   { name := "Escape"
     body :=
       .seq ['\\', .choice [oneOf "btnfr\"'\\", .rule "OctalEscape", .rule "UnicodeEscape"]] },
   { name := "OctalEscape"
     body :=
       .choice
         [.seq [range '0' '3', range '0' '7', range '0' '7'],
          .seq [range '0' '7', range '0' '7'], range '0' '7'] },
   { name := "UnicodeEscape", body := .seq [.plus 'u', hexDigit, hexDigit, hexDigit, hexDigit] }]

end ClassTranscript.Java
