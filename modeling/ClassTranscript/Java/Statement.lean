import ClassTranscript.Java.Token

/-!
# Statements of Java

Blocks, the statements in them, and the parts of the longer ones.
-/

namespace ClassTranscript.Java

open Peg Peg.Expr

/-- Blocks and statements. -/
def statements : List Definition :=
  [{ name := "Block", body := .seq (rules ["LWING", "BlockStatements", "RWING"]) },
   { name := "BlockStatements", body := .star (.rule "BlockStatement") },
   { name := "BlockStatement"
     body :=
       .choice
         [.rule "LocalVariableDeclarationStatement",
          .seq
            [.star (.rule "Modifier"), .choice (rules ["ClassDeclaration", "EnumDeclaration"])],
          .rule "Statement"] },
   { name := "Statement"
     body :=
       .choice
         [.rule "Block",
          .seq
            [.rule "ASSERT", .rule "Expression",
             .optional (.seq (rules ["COLON", "Expression"])), .rule "SEMI"],
          .seq
            [.rule "IF", .rule "ParExpression", .rule "Statement",
             .optional (.seq (rules ["ELSE", "Statement"]))],
          .seq
            [.rule "FOR", .rule "LPAR", .optional (.rule "ForInit"), .rule "SEMI",
             .optional (.rule "Expression"), .rule "SEMI", .optional (.rule "ForUpdate"),
             .rule "RPAR", .rule "Statement"],
          .seq (rules ["FOR", "LPAR", "FormalParameter", "COLON", "Expression", "RPAR",
                       "Statement"]),
          .seq (rules ["WHILE", "ParExpression", "Statement"]),
          .seq (rules ["DO", "Statement", "WHILE", "ParExpression", "SEMI"]),
          .seq
            [.rule "TRY", .rule "Block",
             .choice
               [.seq [.plus (.rule "CatchClause"), .optional (.rule "FinallyClause")],
                .rule "FinallyClause"]],
          .seq (rules ["SWITCH", "ParExpression", "LWING", "SwitchBlockStatementGroups",
                       "RWING"]),
          .seq (rules ["SYNCHRONIZED", "ParExpression", "Block"]),
          .seq [.rule "RETURN", .optional (.rule "Expression"), .rule "SEMI"],
          .seq (rules ["THROW", "Expression", "SEMI"]),
          .seq [.rule "BREAK", .optional (.rule "Identifier"), .rule "SEMI"],
          .seq [.rule "CONTINUE", .optional (.rule "Identifier"), .rule "SEMI"],
          .seq (rules ["Identifier", "COLON", "Statement"]),
          .seq (rules ["StatementExpression", "SEMI"]), .rule "SEMI"] },
   { name := "CatchClause"
     body := .seq (rules ["CATCH", "LPAR", "FormalParameter", "RPAR", "Block"]) },
   { name := "FinallyClause", body := .seq (rules ["FINALLY", "Block"]) },
   { name := "SwitchBlockStatementGroups", body := .star (.rule "SwitchBlockStatementGroup") },
   { name := "SwitchBlockStatementGroup"
     body := .seq (rules ["SwitchLabel", "BlockStatements"]) },
   { name := "SwitchLabel"
     body :=
       .choice
         [.seq (rules ["CASE", "ConstantExpression", "COLON"]),
          .seq (rules ["CASE", "EnumConstantName", "COLON"]),
          .seq (rules ["DEFAULT", "COLON"])] },
   { name := "ForInit"
     body :=
       .choice
         [.seq
            [.star (.choice (rules ["FINAL", "Annotation"])), .rule "Type",
             .rule "VariableDeclarators"],
          .seq (separated (.rule "StatementExpression") (.rule "COMMA"))] },
   { name := "ForUpdate"
     body := .seq (separated (.rule "StatementExpression") (.rule "COMMA")) },
   { name := "EnumConstantName", body := .rule "Identifier" }]

end ClassTranscript.Java
