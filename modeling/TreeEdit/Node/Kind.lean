/-!
# Syntax constructs and the child lists they accept

`Kind` lists the constructs in grammar order; that order is also the order in which kinds sort.
`Kind.shape` gives the number of children a construct takes.
-/

namespace TreeEdit

/-- The number of children a construct takes. -/
inductive Shape
  /-- No child at all. -/
  | leaf
  /-- Exactly `count` children. -/
  | fixed (count : Nat)
  /-- `required` children, then up to `extra` more. -/
  | optional (required extra : Nat)
  /-- At least `least` children. -/
  | sequence (least : Nat)
  deriving DecidableEq, Repr

namespace Shape

/-- Whether a child list of the given length fits the shape. -/
def accepts : Shape → Nat → Bool
  | leaf, count => count == 0
  | fixed n, count => count == n
  | optional required extra, count => required ≤ count && count ≤ required + extra
  | sequence least, count => least ≤ count

/-- The word for the given number of children. -/
def childWord (count : Nat) : String :=
  if count == 1 then "child" else "children"

/-- The wording of a shape in messages. -/
def describe : Shape → String
  | leaf => "no children"
  | fixed n => s!"exactly {n} {childWord n}"
  | optional required extra =>
    s!"{required} to {required + extra} {childWord (required + extra)}"
  | sequence least => s!"at least {least} {childWord least}"

end Shape

/-- The syntax constructs, in grammar order. -/
inductive Kind
  | compilationUnit
  | packageDeclaration
  | importDeclaration
  | classDeclaration
  | interfaceDeclaration
  | enumDeclaration
  | recordDeclaration
  | methodDeclaration
  | constructorDeclaration
  | fieldDeclaration
  | parameterDeclaration
  | variableDeclaration
  | annotation
  | annotationElement
  | block
  | ifStatement
  | forStatement
  | expressionStatement
  | binaryExpression
  | identifier
  | qualifiedName
  | literal
  deriving DecidableEq, Repr, Ord

namespace Kind

/-- All constructs, in grammar order. -/
def all : List Kind :=
  [compilationUnit, packageDeclaration, importDeclaration, classDeclaration,
   interfaceDeclaration, enumDeclaration, recordDeclaration, methodDeclaration,
   constructorDeclaration, fieldDeclaration, parameterDeclaration, variableDeclaration,
   annotation, annotationElement, block, ifStatement, forStatement, expressionStatement,
   binaryExpression, identifier, qualifiedName, literal]

/-- The name of a construct. -/
def name : Kind → String
  | compilationUnit => "CompilationUnit"
  | packageDeclaration => "PackageDeclaration"
  | importDeclaration => "ImportDeclaration"
  | classDeclaration => "ClassDeclaration"
  | interfaceDeclaration => "InterfaceDeclaration"
  | enumDeclaration => "EnumDeclaration"
  | recordDeclaration => "RecordDeclaration"
  | methodDeclaration => "MethodDeclaration"
  | constructorDeclaration => "ConstructorDeclaration"
  | fieldDeclaration => "FieldDeclaration"
  | parameterDeclaration => "ParameterDeclaration"
  | variableDeclaration => "VariableDeclaration"
  | annotation => "Annotation"
  | annotationElement => "AnnotationElement"
  | block => "Block"
  | ifStatement => "IfStatement"
  | forStatement => "ForStatement"
  | expressionStatement => "ExpressionStatement"
  | binaryExpression => "BinaryExpression"
  | identifier => "Identifier"
  | qualifiedName => "QualifiedName"
  | literal => "Literal"

/-- The construct of the given name. -/
def ofName? (s : String) : Option Kind :=
  all.find? (·.name == s)

/-- The child list a construct takes. Declarations start with their name; an `if` holds its
condition, its branch and perhaps a second branch; a variable holds its type, its name and perhaps
an initial value. -/
def shape : Kind → Shape
  | compilationUnit | block => .sequence 0
  | packageDeclaration | importDeclaration | expressionStatement => .fixed 1
  | classDeclaration | interfaceDeclaration | enumDeclaration | recordDeclaration
  | methodDeclaration | constructorDeclaration | annotation | qualifiedName
  | forStatement => .sequence 1
  | fieldDeclaration => .sequence 2
  | parameterDeclaration | annotationElement | binaryExpression => .fixed 2
  | variableDeclaration | ifStatement => .optional 2 1
  | identifier | literal => .leaf

/-- Whether the construct declares a type. -/
def isTypeDeclaration : Kind → Bool
  | classDeclaration | interfaceDeclaration | enumDeclaration | recordDeclaration => true
  | _ => false

/-- Whether the construct never has children. -/
def isLeaf (k : Kind) : Bool :=
  k.shape == .leaf

@[simp] theorem ofName?_name (k : Kind) : ofName? k.name = some k := by
  cases k <;> decide

end Kind

end TreeEdit
