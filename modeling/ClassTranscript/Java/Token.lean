import ClassTranscript.Peg.Combinator
import ClassTranscript.Peg.Grammar

/-!
# Tokens of Java

Spacing, identifiers, keywords and operators. Each keyword and each operator has a rule of its own,
which makes no node and takes the spacing after it, so that every rule above the tokens begins at a
character that means something.
-/

namespace ClassTranscript.Java

open Peg Peg.Expr

/-- The reserved words. Where one begins another, the longer comes first. -/
def keywords : List String :=
  ["assert", "break", "case", "catch", "class", "const", "continue", "default", "do", "else",
   "enum", "extends", "finally", "final", "for", "goto", "if", "implements", "import",
   "interface", "instanceof", "new", "package", "return", "static", "super", "switch",
   "synchronized", "this", "throws", "throw", "try", "void", "while"]

/-- The reserved words that no construct of the language uses. -/
def unusedKeywords : List String :=
  ["const", "goto"]

/-- The operators and separators: the name of the rule, the text, and the characters that must not
follow it. -/
def operators : List (String × String × String) :=
  [("AT", "@", ""), ("AND", "&", "=&"), ("ANDAND", "&&", ""), ("ANDEQU", "&=", ""),
   ("BANG", "!", "="), ("BSR", ">>>", "="), ("BSREQU", ">>>=", ""), ("COLON", ":", ""),
   ("COMMA", ",", ""), ("DEC", "--", ""), ("DIV", "/", "="), ("DIVEQU", "/=", ""),
   ("DOT", ".", ""), ("ELLIPSIS", "...", ""), ("EQU", "=", "="), ("EQUAL", "==", ""),
   ("GE", ">=", ""), ("GT", ">", "=>"), ("HAT", "^", "="), ("HATEQU", "^=", ""),
   ("INC", "++", ""), ("LBRK", "[", ""), ("LE", "<=", ""), ("LPAR", "(", ""), ("LPOINT", "<", ""),
   ("LT", "<", "=<"), ("LWING", "\x7b", ""), ("MINUS", "-", "=-"), ("MINUSEQU", "-=", ""),
   ("MOD", "%", "="), ("MODEQU", "%=", ""), ("NOTEQUAL", "!=", ""), ("OR", "|", "=|"),
   ("OREQU", "|=", ""), ("OROR", "||", ""), ("PLUS", "+", "=+"), ("PLUSEQU", "+=", ""),
   ("QUERY", "?", ""), ("RBRK", "]", ""), ("RPAR", ")", ""), ("RPOINT", ">", ""),
   ("RWING", "\x7d", ""), ("SEMI", ";", ""), ("SL", "<<", "="), ("SLEQU", "<<=", ""),
   ("SR", ">>", "=>"), ("SREQU", ">>=", ""), ("STAR", "*", "="), ("STAREQU", "*=", ""),
   ("TILDA", "~", "")]

/-- A word that no further character of an identifier follows. -/
def word (text : String) : Expr :=
  .seq [text, .notAhead (.rule "LetterOrDigit")]

/-- The name of a token as a node would be labelled, in single quotes. -/
def tokenLabel (text : String) : String :=
  "'" ++ text ++ "'"

/-- White space and comments. -/
def spacing : List Definition :=
  [{ name := "Spacing"
     body :=
       .star (.choice
         [.plus (oneOf " \t\r\n\x0c"), .seq ["/*", .star (.seq [.notAhead "*/", .any]), "*/"],
          .seq
            ["//", .star (.seq [.notAhead (oneOf "\r\n"), .any]),
             .choice ["\r\n", '\r', '\n', .endOfInput]]])
     hidden := true }]

/-- Identifiers and the characters in them. -/
def identifiers : List Definition :=
  [{ name := "Identifier"
     body :=
       .seq
         [.notAhead (.rule "Keyword"), .rule "Letter", .star (.rule "LetterOrDigit"),
          .rule "Spacing"]
     leaf := true
     memo := .mismatches },
   { name := "Letter", body := .choice [.seq ['\\', .rule "UnicodeEscape"], .char .letter] },
   { name := "LetterOrDigit"
     body := .choice [.seq ['\\', .rule "UnicodeEscape"], .char .letterOrDigit]
     memo := .mismatches }]

/-- The rule of a keyword, named by its capitals. -/
def keywordRule (keyword : String) : Definition where
  name := String.ofList (keyword.toList.map Char.toUpper)
  body := .seq [word keyword, .rule "Spacing"]
  label := tokenLabel keyword
  hidden := true

/-- Keywords: the rule for any of them, and the rules for each that is used. -/
def keywordRules : List Definition :=
  { name := "Keyword"
    body := .seq [words keywords, .notAhead (.rule "LetterOrDigit")]
    memo := .mismatches }
  :: (keywords.filter fun keyword => !unusedKeywords.contains keyword).map keywordRule

/-- The rule of an operator. -/
def operatorRule : String × String × String → Definition := fun (name, text, guard) =>
  { name := name
    body :=
      if guard.isEmpty then .seq [text, .rule "Spacing"]
      else .seq [text, .notAhead (oneOf guard), .rule "Spacing"]
    label := tokenLabel text
    hidden := true }

/-- The rules of the operators. -/
def operatorRules : List Definition :=
  operators.map operatorRule

end ClassTranscript.Java
