import ClassTranscript.Java.Token

/-!
# Declarations of Java

Source files, the types declared in them, and the members, variables, parameters and annotations of
those.
-/

namespace ClassTranscript.Java

open Peg Peg.Expr

/-- A source file and the declarations at its top. -/
def compilationUnits : List Definition :=
  [{ name := "CompilationUnit"
     body :=
       .seq
         [.rule "Spacing", .optional (.rule "PackageDeclaration"),
          .star (.rule "ImportDeclaration"), .star (.rule "TypeDeclaration"), .endOfInput] },
   { name := "PackageDeclaration"
     body :=
       .seq
         [.star (.rule "Annotation"), .rule "PACKAGE", .rule "QualifiedIdentifier",
          .rule "SEMI"] },
   { name := "ImportDeclaration"
     body :=
       .seq
         [.rule "IMPORT", .optional (.rule "STATIC"), .rule "QualifiedIdentifier",
          .optional (.seq (rules ["DOT", "STAR"])), .rule "SEMI"] },
   { name := "TypeDeclaration"
     body :=
       .choice
         [.seq
            [.star (.rule "Modifier"),
             .choice (rules ["ClassDeclaration", "EnumDeclaration", "InterfaceDeclaration",
                             "AnnotationTypeDeclaration"])],
          .rule "SEMI"] }]

/-- Classes and their members. -/
def classDeclarations : List Definition :=
  [{ name := "ClassDeclaration"
     body :=
       .seq
         [.rule "CLASS", .rule "Identifier", .optional (.rule "TypeParameters"),
          .optional (.seq (rules ["EXTENDS", "ClassType"])),
          .optional (.seq (rules ["IMPLEMENTS", "ClassTypeList"])), .rule "ClassBody"] },
   { name := "ClassBody"
     body := .seq [.rule "LWING", .star (.rule "ClassBodyDeclaration"), .rule "RWING"] },
   { name := "ClassBodyDeclaration"
     body :=
       .choice
         [.rule "SEMI", .seq [.optional (.rule "STATIC"), .rule "Block"],
          .seq [.star (.rule "Modifier"), .rule "MemberDecl"]] },
   { name := "MemberDecl"
     body :=
       .choice
         [.seq (rules ["TypeParameters", "GenericMethodOrConstructorRest"]),
          .seq (rules ["Type", "Identifier", "MethodDeclaratorRest"]),
          .seq (rules ["Type", "VariableDeclarators", "SEMI"]),
          .seq (rules ["VOID", "Identifier", "VoidMethodDeclaratorRest"]),
          .seq (rules ["Identifier", "ConstructorDeclaratorRest"]),
          .rule "InterfaceDeclaration", .rule "ClassDeclaration", .rule "EnumDeclaration",
          .rule "AnnotationTypeDeclaration"] },
   { name := "GenericMethodOrConstructorRest"
     body :=
       .choice
         [.seq
            [.choice (rules ["Type", "VOID"]), .rule "Identifier",
             .rule "MethodDeclaratorRest"],
          .seq (rules ["Identifier", "ConstructorDeclaratorRest"])] },
   { name := "MethodDeclaratorRest"
     body :=
       .seq
         [.rule "FormalParameters", .star (.rule "Dim"),
          .optional (.seq (rules ["THROWS", "ClassTypeList"])),
          .choice (rules ["MethodBody", "SEMI"])] },
   { name := "VoidMethodDeclaratorRest"
     body :=
       .seq
         [.rule "FormalParameters", .optional (.seq (rules ["THROWS", "ClassTypeList"])),
          .choice (rules ["MethodBody", "SEMI"])] },
   { name := "ConstructorDeclaratorRest"
     body :=
       .seq
         [.rule "FormalParameters", .optional (.seq (rules ["THROWS", "ClassTypeList"])),
          .rule "MethodBody"] },
   { name := "MethodBody", body := .rule "Block" }]

/-- Interfaces and their members. -/
def interfaceDeclarations : List Definition :=
  [{ name := "InterfaceDeclaration"
     body :=
       .seq
         [.rule "INTERFACE", .rule "Identifier", .optional (.rule "TypeParameters"),
          .optional (.seq (rules ["EXTENDS", "ClassTypeList"])), .rule "InterfaceBody"] },
   { name := "InterfaceBody"
     body := .seq [.rule "LWING", .star (.rule "InterfaceBodyDeclaration"), .rule "RWING"] },
   { name := "InterfaceBodyDeclaration"
     body :=
       .choice [.seq [.star (.rule "Modifier"), .rule "InterfaceMemberDecl"], .rule "SEMI"] },
   { name := "InterfaceMemberDecl"
     body :=
       .choice
         [.rule "InterfaceMethodOrFieldDecl", .rule "InterfaceGenericMethodDecl",
          .seq (rules ["VOID", "Identifier", "VoidInterfaceMethodDeclaratorsRest"]),
          .rule "InterfaceDeclaration", .rule "AnnotationTypeDeclaration",
          .rule "ClassDeclaration", .rule "EnumDeclaration"] },
   { name := "InterfaceMethodOrFieldDecl"
     body := .seq (rules ["Type", "Identifier", "InterfaceMethodOrFieldRest"]) },
   { name := "InterfaceMethodOrFieldRest"
     body :=
       .choice
         [.seq (rules ["ConstantDeclaratorsRest", "SEMI"]),
          .rule "InterfaceMethodDeclaratorRest"] },
   { name := "InterfaceMethodDeclaratorRest"
     body :=
       .seq
         [.rule "FormalParameters", .star (.rule "Dim"),
          .optional (.seq (rules ["THROWS", "ClassTypeList"])), .rule "SEMI"] },
   { name := "InterfaceGenericMethodDecl"
     body :=
       .seq
         [.rule "TypeParameters", .choice (rules ["Type", "VOID"]), .rule "Identifier",
          .rule "InterfaceMethodDeclaratorRest"] },
   { name := "VoidInterfaceMethodDeclaratorsRest"
     body :=
       .seq
         [.rule "FormalParameters", .optional (.seq (rules ["THROWS", "ClassTypeList"])),
          .rule "SEMI"] },
   { name := "ConstantDeclaratorsRest"
     body :=
       .seq
         [.rule "ConstantDeclaratorRest",
          .star (.seq (rules ["COMMA", "ConstantDeclarator"]))] },
   { name := "ConstantDeclarator"
     body := .seq (rules ["Identifier", "ConstantDeclaratorRest"]) },
   { name := "ConstantDeclaratorRest"
     body := .seq [.star (.rule "Dim"), .rule "EQU", .rule "VariableInitializer"] }]

/-- Enumerations. -/
def enumDeclarations : List Definition :=
  [{ name := "EnumDeclaration"
     body :=
       .seq
         [.rule "ENUM", .rule "Identifier",
          .optional (.seq (rules ["IMPLEMENTS", "ClassTypeList"])), .rule "EnumBody"] },
   { name := "EnumBody"
     body :=
       .seq
         [.rule "LWING", .optional (.rule "EnumConstants"), .optional (.rule "COMMA"),
          .optional (.rule "EnumBodyDeclarations"), .rule "RWING"] },
   { name := "EnumConstants", body := .seq (separated (.rule "EnumConstant") (.rule "COMMA")) },
   { name := "EnumConstant"
     body :=
       .seq
         [.star (.rule "Annotation"), .rule "Identifier", .optional (.rule "Arguments"),
          .optional (.rule "ClassBody")] },
   { name := "EnumBodyDeclarations"
     body := .seq [.rule "SEMI", .star (.rule "ClassBodyDeclaration")] }]

/-- Variables. -/
def variableDeclarations : List Definition :=
  [{ name := "LocalVariableDeclarationStatement"
     body :=
       .seq
         [.star (.choice (rules ["FINAL", "Annotation"])), .rule "Type",
          .rule "VariableDeclarators", .rule "SEMI"] },
   { name := "VariableDeclarators"
     body := .seq (separated (.rule "VariableDeclarator") (.rule "COMMA")) },
   { name := "VariableDeclarator"
     body :=
       .seq
         [.rule "Identifier", .star (.rule "Dim"),
          .optional (.seq (rules ["EQU", "VariableInitializer"]))] }]

/-- Parameters of methods. -/
def parameterDeclarations : List Definition :=
  [{ name := "FormalParameters"
     body := .seq [.rule "LPAR", .optional (.rule "FormalParameterDecls"), .rule "RPAR"] },
   { name := "FormalParameter"
     body :=
       .seq
         [.star (.choice (rules ["FINAL", "Annotation"])), .rule "Type",
          .rule "VariableDeclaratorId"] },
   { name := "FormalParameterDecls"
     body :=
       .seq
         [.star (.choice (rules ["FINAL", "Annotation"])), .rule "Type",
          .rule "FormalParameterDeclsRest"] },
   { name := "FormalParameterDeclsRest"
     body :=
       .choice
         [.seq
            [.rule "VariableDeclaratorId",
             .optional (.seq (rules ["COMMA", "FormalParameterDecls"]))],
          .seq (rules ["ELLIPSIS", "VariableDeclaratorId"])] },
   { name := "VariableDeclaratorId", body := .seq [.rule "Identifier", .star (.rule "Dim")] }]

/-- Annotations and the declarations of their types. -/
def annotationRules : List Definition :=
  [{ name := "AnnotationTypeDeclaration"
     body := .seq (rules ["AT", "INTERFACE", "Identifier", "AnnotationTypeBody"]) },
   { name := "AnnotationTypeBody"
     body :=
       .seq [.rule "LWING", .star (.rule "AnnotationTypeElementDeclaration"), .rule "RWING"] },
   { name := "AnnotationTypeElementDeclaration"
     body :=
       .choice
         [.seq [.star (.rule "Modifier"), .rule "AnnotationTypeElementRest"], .rule "SEMI"] },
   { name := "AnnotationTypeElementRest"
     body :=
       .choice
         [.seq (rules ["Type", "AnnotationMethodOrConstantRest", "SEMI"]),
          .rule "ClassDeclaration", .rule "EnumDeclaration", .rule "InterfaceDeclaration",
          .rule "AnnotationTypeDeclaration"] },
   { name := "AnnotationMethodOrConstantRest"
     body := .choice (rules ["AnnotationMethodRest", "AnnotationConstantRest"]) },
   { name := "AnnotationMethodRest"
     body :=
       .seq [.rule "Identifier", .rule "LPAR", .rule "RPAR", .optional (.rule "DefaultValue")] },
   { name := "AnnotationConstantRest", body := .rule "VariableDeclarators" },
   { name := "DefaultValue", body := .seq (rules ["DEFAULT", "ElementValue"]) },
   { name := "Annotation"
     body := .seq [.rule "AT", .rule "QualifiedIdentifier", .optional (.rule "AnnotationRest")]
     memo := .mismatches },
   { name := "AnnotationRest"
     body := .choice (rules ["NormalAnnotationRest", "SingleElementAnnotationRest"]) },
   { name := "NormalAnnotationRest"
     body := .seq [.rule "LPAR", .optional (.rule "ElementValuePairs"), .rule "RPAR"] },
   { name := "ElementValuePairs"
     body := .seq (separated (.rule "ElementValuePair") (.rule "COMMA")) },
   { name := "ElementValuePair", body := .seq (rules ["Identifier", "EQU", "ElementValue"]) },
   { name := "ElementValue"
     body :=
       .choice (rules ["ConditionalExpression", "Annotation", "ElementValueArrayInitializer"]) },
   { name := "ElementValueArrayInitializer"
     body :=
       .seq
         [.rule "LWING", .optional (.rule "ElementValues"), .optional (.rule "COMMA"),
          .rule "RWING"] },
   { name := "ElementValues", body := .seq (separated (.rule "ElementValue") (.rule "COMMA")) },
   { name := "SingleElementAnnotationRest"
     body := .seq (rules ["LPAR", "ElementValue", "RPAR"]) }]

end ClassTranscript.Java
