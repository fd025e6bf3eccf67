/-! # Node kinds

The kind of a node is the text of its `type`. The kinds that the analysis treats in a way of their
own have constructors; three of them are reported beside the plain ones: `anyFunction` for functions
of every kind, `anyClass` for classes, and `variablePattern` for identifiers in target positions.
-/

namespace LexicalScope

inductive Kind where
  | program
  | blockStatement
  | switchStatement
  | tryStatement
  | catchClause
  | labeledStatement
  | breakStatement
  | continueStatement
  | variableDeclaration
  | variableDeclarator
  | functionDeclaration
  | functionExpression
  | arrowFunctionExpression
  | anyFunction
  | classDeclaration
  | classExpression
  | anyClass
  | methodDefinition
  | propertyDefinition
  | property
  | identifier
  | variablePattern
  | privateIdentifier
  | literal
  | thisExpression
  | superExpression
  | metaProperty
  | templateElement
  | memberExpression
  | assignmentExpression
  | assignmentPattern
  | objectPattern
  | arrayPattern
  | restElement
  | importDeclaration
  | importSpecifier
  | importDefaultSpecifier
  | importNamespaceSpecifier
  | exportSpecifier
  | exportNamedDeclaration
  | exportAllDeclaration
  | exportDefaultDeclaration
  /-- A name that the walk does not look below. -/
  | all
  | other (name : String)
  /-- The kind of a node whose type is null, a Boolean or a number. -/
  | untyped
  /-- The kind of a node whose type is a list or an object, which no table can be asked for. -/
  | compound
deriving DecidableEq, Repr

namespace Kind

def names : List (String × Kind) := [
  ("Program", program),
  ("BlockStatement", blockStatement),
  ("SwitchStatement", switchStatement),
  ("TryStatement", tryStatement),
  ("CatchClause", catchClause),
  ("LabeledStatement", labeledStatement),
  ("BreakStatement", breakStatement),
  ("ContinueStatement", continueStatement),
  ("VariableDeclaration", variableDeclaration),
  ("VariableDeclarator", variableDeclarator),
  ("FunctionDeclaration", functionDeclaration),
  ("FunctionExpression", functionExpression),
  ("ArrowFunctionExpression", arrowFunctionExpression),
  ("Function", anyFunction),
  ("ClassDeclaration", classDeclaration),
  ("ClassExpression", classExpression),
  ("Class", anyClass),
  ("MethodDefinition", methodDefinition),
  ("PropertyDefinition", propertyDefinition),
  ("Property", property),
  ("Identifier", identifier),
  ("VariablePattern", variablePattern),
  ("PrivateIdentifier", privateIdentifier),
  ("Literal", literal),
  ("ThisExpression", thisExpression),
  ("Super", superExpression),
  ("MetaProperty", metaProperty),
  ("TemplateElement", templateElement),
  ("MemberExpression", memberExpression),
  ("AssignmentExpression", assignmentExpression),
  ("AssignmentPattern", assignmentPattern),
  ("ObjectPattern", objectPattern),
  ("ArrayPattern", arrayPattern),
  ("RestElement", restElement),
  ("ImportDeclaration", importDeclaration),
  ("ImportSpecifier", importSpecifier),
  ("ImportDefaultSpecifier", importDefaultSpecifier),
  ("ImportNamespaceSpecifier", importNamespaceSpecifier),
  ("ExportSpecifier", exportSpecifier),
  ("ExportNamedDeclaration", exportNamedDeclaration),
  ("ExportAllDeclaration", exportAllDeclaration),
  ("ExportDefaultDeclaration", exportDefaultDeclaration),
  ("all", all)]

def ofString (s : String) : Kind := (names.lookup s).getD (other s)

def isFunction : Kind → Bool
  | functionDeclaration | functionExpression | arrowFunctionExpression => true
  | _ => false

def isClass : Kind → Bool
  | classDeclaration | classExpression => true
  | _ => false

/-- The four kinds that a binding pattern is built of around its identifiers. -/
def isPattern : Kind → Bool
  | objectPattern | arrayPattern | restElement | assignmentPattern => true
  | _ => false

/-- Arrow functions see the `arguments` and the `this` of the function around them. -/
def declaresArguments : Kind → Bool
  | functionDeclaration | functionExpression => true
  | _ => false

def isBlock : Kind → Bool
  | blockStatement | switchStatement => true
  | _ => false

end Kind

end LexicalScope
