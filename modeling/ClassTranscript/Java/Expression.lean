import ClassTranscript.Java.Token

/-!
# Expressions of Java

The levels of precedence from the loosest to the tightest, primary expressions with what may be
selected from them, and the creation of objects and arrays. Any conditional expression may stand on
the left of an assignment; that it names a variable is not checked.
-/

namespace ClassTranscript.Java

open Peg Peg.Expr

/-- A level of precedence: operands of the next level with operators between them. -/
def leftAssociative (operand : String) (operator : Expr) : Expr :=
  .seq (separated (.rule operand) operator)

/-- The levels of precedence. -/
def precedenceLevels : List Definition :=
  [{ name := "StatementExpression", body := .rule "Expression" },
   { name := "ConstantExpression", body := .rule "Expression" },
   { name := "Expression"
     body := .seq (separated (.rule "ConditionalExpression") (.rule "AssignmentOperator")) },
   { name := "AssignmentOperator"
     body :=
       .choice (rules ["EQU", "PLUSEQU", "MINUSEQU", "STAREQU", "DIVEQU", "ANDEQU", "OREQU",
                       "HATEQU", "MODEQU", "SLEQU", "SREQU", "BSREQU"]) },
   { name := "ConditionalExpression"
     body :=
       .seq
         [.rule "ConditionalOrExpression",
          .star (.seq (rules ["QUERY", "Expression", "COLON", "ConditionalOrExpression"]))] },
   { name := "ConditionalOrExpression"
     body := leftAssociative "ConditionalAndExpression" (.rule "OROR") },
   { name := "ConditionalAndExpression"
     body := leftAssociative "InclusiveOrExpression" (.rule "ANDAND") },
   { name := "InclusiveOrExpression"
     body := leftAssociative "ExclusiveOrExpression" (.rule "OR") },
   { name := "ExclusiveOrExpression", body := leftAssociative "AndExpression" (.rule "HAT") },
   { name := "AndExpression", body := leftAssociative "EqualityExpression" (.rule "AND") },
   { name := "EqualityExpression"
     body := leftAssociative "RelationalExpression" (.choice (rules ["EQUAL", "NOTEQUAL"])) },
   { name := "RelationalExpression"
     body :=
       .seq
         [.rule "ShiftExpression",
          .star (.choice
            [.seq [.choice (rules ["LE", "GE", "LT", "GT"]), .rule "ShiftExpression"],
             .seq (rules ["INSTANCEOF", "ReferenceType"])])] },
   { name := "ShiftExpression"
     body := leftAssociative "AdditiveExpression" (.choice (rules ["SL", "SR", "BSR"])) },
   { name := "AdditiveExpression"
     body := leftAssociative "MultiplicativeExpression" (.choice (rules ["PLUS", "MINUS"])) },
   { name := "MultiplicativeExpression"
     body := leftAssociative "UnaryExpression" (.choice (rules ["STAR", "DIV", "MOD"])) },
   { name := "UnaryExpression"
     body :=
       .choice
         [.seq (rules ["PrefixOp", "UnaryExpression"]),
          .seq (rules ["LPAR", "Type", "RPAR", "UnaryExpression"]),
          .seq [.rule "Primary", .star (.rule "Selector"), .star (.rule "PostFixOp")]] },
   { name := "PrefixOp"
     body := .choice (rules ["INC", "DEC", "BANG", "TILDA", "PLUS", "MINUS"]) },
   { name := "PostFixOp", body := .choice (rules ["INC", "DEC"]) }]

/-- Primary expressions, and what may follow them. -/
def primaries : List Definition :=
  [{ name := "Primary"
     body :=
       .choice
         [.rule "ParExpression",
          .seq
            [.rule "NonWildcardTypeArguments",
             .choice
               [.rule "ExplicitGenericInvocationSuffix", .seq (rules ["THIS", "Arguments"])]],
          .seq [.rule "THIS", .optional (.rule "Arguments")],
          .seq (rules ["SUPER", "SuperSuffix"]), .rule "Literal",
          .seq (rules ["NEW", "Creator"]),
          .seq [.rule "QualifiedIdentifier", .optional (.rule "IdentifierSuffix")],
          .seq [.rule "BasicType", .star (.rule "Dim"), .rule "DOT", .rule "CLASS"],
          .seq (rules ["VOID", "DOT", "CLASS"])] },
   { name := "IdentifierSuffix"
     body :=
       .choice
         [.seq
            [.rule "LBRK",
             .choice
               [.seq [.rule "RBRK", .star (.rule "Dim"), .rule "DOT", .rule "CLASS"],
                .seq (rules ["Expression", "RBRK"])]],
          .rule "Arguments",
          .seq
            [.rule "DOT",
             .choice
               [.rule "CLASS", .rule "ExplicitGenericInvocation", .rule "THIS",
                .seq (rules ["SUPER", "Arguments"]),
                .seq
                  [.rule "NEW", .optional (.rule "NonWildcardTypeArguments"),
                   .rule "InnerCreator"]]]] },
   { name := "ExplicitGenericInvocation"
     body := .seq (rules ["NonWildcardTypeArguments", "ExplicitGenericInvocationSuffix"]) },
   { name := "NonWildcardTypeArguments"
     body :=
       .seq
         [.rule "LPOINT", .rule "ReferenceType",
          .star (.seq (rules ["COMMA", "ReferenceType"])), .rule "RPOINT"] },
   { name := "ExplicitGenericInvocationSuffix"
     body :=
       .choice
         [.seq (rules ["SUPER", "SuperSuffix"]), .seq (rules ["Identifier", "Arguments"])] },
   { name := "Selector"
     body :=
       .choice
         [.seq [.rule "DOT", .rule "Identifier", .optional (.rule "Arguments")],
          .seq (rules ["DOT", "ExplicitGenericInvocation"]), .seq (rules ["DOT", "THIS"]),
          .seq (rules ["DOT", "SUPER", "SuperSuffix"]),
          .seq
            [.rule "DOT", .rule "NEW", .optional (.rule "NonWildcardTypeArguments"),
             .rule "InnerCreator"],
          .rule "DimExpr"] },
   { name := "SuperSuffix"
     body :=
       .choice
         [.rule "Arguments",
          .seq [.rule "DOT", .rule "Identifier", .optional (.rule "Arguments")]] },
   { name := "Arguments"
     body :=
       .seq
         [.rule "LPAR", .optional (.seq (separated (.rule "Expression") (.rule "COMMA"))),
          .rule "RPAR"] },
   { name := "ParExpression", body := .seq (rules ["LPAR", "Expression", "RPAR"]) }]

/-- What follows `new`. An array of a basic type may have neither a dimension nor an initializer,
which is more than the language allows. -/
def creators : List Definition :=
  [{ name := "Creator"
     body :=
       .choice
         [.seq
            [.optional (.rule "NonWildcardTypeArguments"), .rule "CreatedName",
             .rule "ClassCreatorRest"],
          .seq
            [.optional (.rule "NonWildcardTypeArguments"),
             .choice (rules ["ClassType", "BasicType"]), .rule "ArrayCreatorRest"]] },
   { name := "CreatedName"
     body :=
       .seq
         [.rule "Identifier", .optional (.rule "NonWildcardTypeArguments"),
          .star (.seq
            [.rule "DOT", .rule "Identifier", .optional (.rule "NonWildcardTypeArguments")])] },
   { name := "InnerCreator", body := .seq (rules ["Identifier", "ClassCreatorRest"]) },
   { name := "ArrayCreatorRest"
     body :=
       .seq
         [.rule "LBRK",
          .choice
            [.seq [.rule "RBRK", .star (.rule "Dim"), .rule "ArrayInitializer"],
             .seq
               [.rule "Expression", .rule "RBRK", .star (.rule "DimExpr"),
                .star (.rule "Dim")]]] },
   { name := "ClassCreatorRest"
     body := .seq [.rule "Arguments", .optional (.rule "ClassBody")] },
   { name := "ArrayInitializer"
     body :=
       .seq
         [.rule "LWING",
          .optional (.seq (separated (.rule "VariableInitializer") (.rule "COMMA"))),
          .optional (.rule "COMMA"), .rule "RWING"] },
   { name := "VariableInitializer", body := .choice (rules ["ArrayInitializer", "Expression"]) }]

end ClassTranscript.Java
