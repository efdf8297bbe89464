import Retrace.Java.Rule

/-! The grammar of Java.

`Category` names the constructs that contain one another, `grammar` gives their rules, and
`compilationUnit` is the rule of a whole file, in which statements and methods may also stand
outside of any class.

Some constructs begin alike, and the order of alternatives decides between them. A parenthesized
plain name is a cast when an operand follows that does not begin with a sign. What can be read as
a declaration is one, rather than a comparison. A name in front of an arrow begins a lambda, but
not in the label of a switch. -/
namespace Retrace.Java

/-- Expressions have a rule for each level of precedence. In a label of a switch, no lambda
stands outside of brackets. -/
inductive Category
  | expression (label : Bool)
  | level (n : Nat) (label : Bool)
  | operand (label : Bool)
  | primary
  | parenthesized
  | argumentList
  | stringLiteral
  | creation
  | switch
  | recordPattern
  | type
  | plainType
  | simpleType
  | typeArguments
  | typeParameters
  | formalParameters
  | annotationUse
  | elementValue
  | modifiers
  | variableInitializer
  | block
  | statement
  | classBody
  | typeDeclaration

namespace Grammar
open Rule

abbrev R := Rule Category

def expression : R := call (.expression false)
def primary : R := call .primary
def type : R := call .type
def plainType : R := call .plainType
def block : R := call .block
def statement : R := call .statement
def modifiers : R := perhaps (call .modifiers)
def annotations : R := many (call .annotationUse)
def arguments : R := under .arguments (call .argumentList)

def any (_ : Form) : Bool := true

def braces (r : R) : R := enclosed "\x7b" "\x7d" r

/-! ### Names -/

def identifier : R := leaf .identifier Lexeme.isName
def typeIdentifier : R := leaf .typeIdentifier Lexeme.isName
def underscore : R := leaf .underscorePattern (Lexeme.isWord "_")
def this : R := leaf .thisReference (Lexeme.isWord "this")
def super : R := leaf .superReference (Lexeme.isWord "super")

def name : R := under .name identifier

def qualifiedName : R :=
  chain identifier (grow .scopedIdentifier (some .scope) any (symbol "." >> name))

/-! ### Types -/

def words (form : Form) (texts : List String) : R :=
  choice (texts.map fun t => leaf form (Lexeme.isWord t))

def dimensions : R :=
  node .dimensions (oneOrMore (annotations >> symbol "[" >> symbol "]"))

def maybeDimensions : R := under .dimensions (perhaps dimensions)

def baseType : R :=
  choice [words .voidType ["void"], words .integralType ["byte", "short", "int", "long", "char"],
    words .floatingPointType ["float", "double"], words .booleanType ["boolean"], typeIdentifier]

def isScope (f : Form) : Bool :=
  f == .typeIdentifier || f == .scopedTypeIdentifier || f == .genericType

def isRaw (f : Form) : Bool :=
  f == .typeIdentifier || f == .scopedTypeIdentifier

def simpleType : R :=
  chain baseType
    (choice [grow .scopedTypeIdentifier none isScope (symbol "." >> annotations >> typeIdentifier),
      grow .genericType none isRaw (call .typeArguments)])

def arrayOrSimpleType : R :=
  chain (call .simpleType)
    (grow .arrayType (some .element) (· != .arrayType) (under .dimensions dimensions))

def annotatedType : R :=
  node .annotatedType (oneOrMore (call .annotationUse) >> plainType)

def wildcardBounds : R :=
  choice [keyword "extends" >> type, super >> type]

def wildcard : R :=
  node .wildcard (annotations >> symbol "?" >> perhaps wildcardBounds)

def typeArguments : R :=
  node .typeArguments (enclosed "<" ">" (list (type <|> wildcard)))

def typeBound : R :=
  node .typeBound (keyword "extends" >> separated "&" type)

def typeParameter : R :=
  node .typeParameter (annotations >> typeIdentifier >> perhaps typeBound)

def typeParameters : R :=
  node .typeParameters (enclosed "<" ">" (separated "," typeParameter))

def maybeTypeParameters : R := under .typeParameters (perhaps (call .typeParameters))

def maybeTypeArguments : R := under .typeArguments (perhaps (call .typeArguments))

def typeList : R := node .typeList (separated "," type)

/-! ### Annotations -/

def elementValuePair : R :=
  node .elementValuePair (under .key identifier >> symbol "=" >>
    under .value (call .elementValue))

def annotationArguments : R :=
  node .annotationArgumentList (enclosed "(" ")" (list elementValuePair) <|>
    enclosed "(" ")" (call .elementValue))

def annotationName : R := under .name qualifiedName

def annotationRule : R :=
  node .annotationCall (symbol "@" >> annotationName >> under .arguments annotationArguments) <|>
    node .annotationMarker (symbol "@" >> annotationName)

def elementValue : R :=
  choice [
    node .elementValueArrayInitializer
      (braces (list (call .elementValue) >> perhaps (symbol ","))),
    call .annotationUse,
    expression]

def modifierWords : List String :=
  ["public", "protected", "private", "abstract", "static", "final", "strictfp", "default",
    "synchronized", "native", "transient", "volatile", "sealed"]

def nonSealed : R :=
  keyword "non" >> symbol "-" >> keyword "sealed"

def modifierWord : R := take fun l => l.kind == .word && modifierWords.contains l.text

def modifierList : R :=
  node .modifiers (oneOrMore (choice [call .annotationUse, modifierWord, nonSealed]))

/-! ### Literals -/

def literalForms : List Form :=
  [.decimalIntegerLiteral, .hexIntegerLiteral, .octalIntegerLiteral, .binaryIntegerLiteral,
    .decimalFloatingPointLiteral, .hexFloatingPointLiteral, .characterLiteral]

def stringHole : R :=
  node .stringInterpolation (ofKind .openHole >> expression >> ofKind .closeHole)

def piece (form : Form) : R := leaf form fun l => l.kind == .piece form

def stringLiteral : R :=
  node .stringLiteral
    (choice [
      ofKind .openQuote >>
        many (choice [piece .stringFragment, piece .escapeSequence, stringHole]) >>
        ofKind .closeQuote,
      ofKind .openBlock >>
        many (choice [piece .multilineStringFragment, piece .escapeSequence, ofKind .bare]) >>
        ofKind .closeBlock])

def literal : R :=
  choice (literalForms.map (fun f => leaf f fun l => l.kind == .literal f) ++
    [words .trueLiteral ["true"], words .falseLiteral ["false"], words .nullLiteral ["null"],
      call .stringLiteral])

/-! ### Primary expressions -/

def parenthesized : R :=
  node .parenthesizedExpression (enclosed "(" ")" expression)

def argumentList : R :=
  node .argumentList (enclosed "(" ")" (list expression))

def classLiteral : R :=
  node .classLiteral (plainType >> symbol "." >> keyword "class")

/-- A type that cannot be read as an expression. -/
def isPlainlyType (f : Form) : Bool :=
  f == .genericType || f == .arrayType || f == .integralType || f == .floatingPointType ||
    f == .booleanType || f == .voidType || f == .annotatedType

def referenceTail : R :=
  symbol "::" >> perhaps (call .typeArguments) >> (keyword "new" <|> identifier)

def typeReference : R :=
  node .methodReference (only isPlainlyType type >> referenceTail)

def newType : R := under .type (call .simpleType)

/-- An object creation without the expression that may qualify it. -/
def objectCreation : R :=
  keyword "new" >>
    ((annotations >> under .typeArguments (call .typeArguments) >> annotations) <|> annotations) >>
    newType >> arguments >> perhaps (call .classBody)

def dimensionExpression : R :=
  node .dimensionsExpr (annotations >> enclosed "[" "]" expression)

def arrayInitializer : R :=
  node .arrayInitializer
    (braces (list (call .variableInitializer) >> perhaps (symbol ",")))

def arrayCreation : R :=
  keyword "new" >> annotations >> newType >>
    ((under .dimensions (oneOrMore dimensionExpression) >> maybeDimensions) <|>
      (under .dimensions dimensions >> under .value arrayInitializer))

def creation : R :=
  node .objectCreationExpression objectCreation <|> node .arrayCreationExpression arrayCreation

def fieldName : R := under .field (identifier <|> this)

def primaryBase : R :=
  choice [
    literal,
    call .parenthesized,
    call .creation,
    classLiteral,
    typeReference,
    this,
    super >> ahead (symbol "." <|> symbol "::"),
    node .methodInvocation (name >> arguments),
    identifier]

def isPrimary (f : Form) : Bool := f != .assignmentExpression

def isAssignable (f : Form) : Bool :=
  f == .identifier || f == .fieldAccess || f == .arrayAccess

def assignmentMark : R :=
  choice (["=", "+=", "-=", "*=", "/=", "&=", "|=", "^=", "%=", "<<="].map symbol ++
    [glued [">", ">", "="] [], glued [">", ">", ">", "="] []])

def primaryLink : R :=
  choice [
    grow .methodInvocation (some .object) isPrimary
      (symbol "." >> super >> symbol "." >> maybeTypeArguments >> name >> arguments),
    grow .methodInvocation (some .object) isPrimary
      (symbol "." >> maybeTypeArguments >> name >> arguments),
    grow .fieldAccess (some .object) isPrimary (symbol "." >> super >> symbol "." >> fieldName),
    grow .objectCreationExpression none isPrimary (symbol "." >> objectCreation),
    grow .fieldAccess (some .object) isPrimary (symbol "." >> fieldName),
    grow .templateExpression (some .templateProcessor) isPrimary
      (symbol "." >> under .templateArgument (call .stringLiteral)),
    grow .arrayAccess (some .array) isPrimary (enclosed "[" "]" (under .index expression)),
    grow .methodReference none isPrimary referenceTail,
    grow .assignmentExpression (some .left) isAssignable
      (assignmentMark >> under .right expression)]

/-! ### Operators -/

def inferredParameters : R :=
  node .inferredParameters (enclosed "(" ")" (separated "," identifier))

def lambda : R :=
  node .lambdaExpression
    (under .parameters (choice [identifier, inferredParameters, call .formalParameters]) >>
      symbol "->" >> under .body (block <|> expression))

def castType (type : R) : R := enclosed "(" ")" (under .type type)

def sign : R := choice [symbol "+", symbol "-", symbol "++", symbol "--"]

def suffixed (label : Bool) : R := call (.level 10 label)

def cast (label : Bool) : R :=
  let value := under .value (suffixed label)
  node .castExpression (choice [
    castType (only isPlainlyType type) >> value,
    castType type >> notAhead sign >> value,
    enclosed "(" ")" (under .type (type >> oneOrMore (symbol "&" >> type))) >>
      under .value (lambda <|> primary)])

def switch : R := call .switch

def operand (label : Bool) : R :=
  let rest := [
    cast label,
    node .unaryExpression
      (choice [symbol "+", symbol "-", symbol "!", symbol "~"] >>
        under .operand (call (.operand label))),
    node .updateExpression ((symbol "++" <|> symbol "--") >> call (.operand label)),
    switch,
    primary]
  choice (if label then rest else lambda :: rest)

def binary (n : Nat) (label : Bool) (marks : List R) : R :=
  grow .binaryExpression (some .left) any
    (choice marks >> under .right (call (.level (n + 1) label)))

def recordPatternComponent : R :=
  node .recordPatternComponent (underscore <|> (plainType >> identifier))

def recordPattern : R :=
  node .recordPattern
    ((only (· == .genericType) (call .simpleType) <|> identifier) >>
      node .recordPatternBody
        (enclosed "(" ")" (list (call .recordPattern <|> recordPatternComponent))))

def typeTest : R :=
  grow .instanceofExpression (some .left) any
    (keyword "instanceof" >> perhaps (keyword "final") >>
      (under .pattern (call .recordPattern) <|>
        (under .right type >> perhaps (name))))

/-- The operators of each level, from those that bind loosest. -/
def levelLink (n : Nat) (label : Bool) : R :=
  match n with
  | 0 => binary n label [symbol "||"]
  | 1 => binary n label [symbol "&&"]
  | 2 => binary n label [symbol "|"]
  | 3 => binary n label [symbol "^"]
  | 4 => binary n label [symbol "&"]
  | 5 => binary n label [symbol "==", symbol "!="]
  | 6 =>
    binary n label [symbol "<", symbol "<=", glued [">", "="] [], glued [">"] [">", "=", "=="]] <|>
      typeTest
  | 7 =>
    binary n label [symbol "<<", glued [">", ">", ">"] [">", "=", "=="],
      glued [">", ">"] [">", "=", "=="]]
  | 8 => binary n label [symbol "+", symbol "-"]
  | 9 => binary n label [symbol "*", symbol "/", symbol "%"]
  | _ => grow .updateExpression none any (symbol "++" <|> symbol "--")

def level (n : Nat) (label : Bool) : R :=
  chain (if n < 10 then call (.level (n + 1) label) else call (.operand label)) (levelLink n label)

def ternary (label : Bool) : R :=
  chain (call (.level 0 label))
    (grow .ternaryExpression (some .condition) any
      (symbol "?" >> under .consequence expression >> symbol ":" >>
        under .alternative (call (.expression label))))

/-! ### Switches -/

def guard : R := node .guard (keyword "when" >> call (.expression true))

/-- A guard stands here, and not a variable of that name. -/
def guardAhead : R := keyword "when" >> notAhead (symbol ":" <|> symbol "->")

def typePattern : R := node .typePattern (plainType >> notAhead guardAhead >> identifier)

def pattern : R := node .pattern (call .recordPattern <|> typePattern)

def labelEnd : R := perhaps guard >> ahead (symbol ":" <|> symbol "->")

def switchLabel : R :=
  node .switchLabel (choice [
    keyword "case" >> pattern >> labelEnd,
    keyword "case" >> separated "," (call (.expression true)) >> labelEnd,
    keyword "default"])

def expressionStatement : R :=
  node .expressionStatement (expression >> symbol ";")

def throwStatement : R :=
  node .throwStatement (keyword "throw" >> expression >> symbol ";")

def switchRule : R :=
  node .switchRule
    (switchLabel >> symbol "->" >> choice [block, throwStatement, expressionStatement])

def switchGroup : R :=
  node .switchBlockStatementGroup (switchLabel >> symbol ":" >> many statement)

def switchExpression : R :=
  node .switchExpression
    (keyword "switch" >> under .condition (call .parenthesized) >>
      under .body (node .switchBlock
        (braces (many switchRule) <|> braces (many switchGroup))))

/-! ### Variables and parameters -/

def declaratorId : R :=
  under .name (underscore <|> identifier) >> maybeDimensions

def declarator : R :=
  node .variableDeclarator
    (declaratorId >> perhaps (symbol "=" >> under .value (call .variableInitializer)))

def declarators : R := separated "," (under .declarator declarator)

def typed : R := under .type plainType

def typedDeclarators : R := modifiers >> typed >> declarators >> symbol ";"

def localVariables : R := node .localVariableDeclaration typedDeclarators

def formalParameter : R := node .formalParameter (modifiers >> typed >> declaratorId)

def spreadParameter : R :=
  node .spreadParameter (modifiers >> plainType >> symbol "..." >> annotations >> declarator)

def receiverParameter : R :=
  node .receiverParameter (annotations >> plainType >> many (identifier >> symbol ".") >> this)

def formalParameters : R :=
  node .formalParameters
    (enclosed "(" ")"
      (perhaps (receiverParameter >> (symbol "," <|> ahead (symbol ")"))) >>
        list (formalParameter <|> spreadParameter)))

/-! ### Statements -/

def body : R := under .body statement
def condition : R := under .condition (call .parenthesized)

def ifStatement : R :=
  node .ifStatement
    (keyword "if" >> condition >> under .consequence statement >>
      perhaps (keyword "else" >> under .alternative statement))

def whileStatement : R := node .whileStatement (keyword "while" >> condition >> body)

def doStatement : R :=
  node .doStatement (keyword "do" >> body >> keyword "while" >> condition >> symbol ";")

def forInit : R :=
  under .init localVariables <|> (list (under .init expression) >> symbol ";")

def forStatement : R :=
  node .forStatement
    (keyword "for" >>
      enclosed "(" ")"
        (forInit >> under .condition (perhaps expression) >> symbol ";" >>
          list (under .update expression)) >>
      body)

def enhancedForStatement : R :=
  node .enhancedForStatement
    (keyword "for" >>
      enclosed "(" ")"
        (modifiers >> typed >> declaratorId >> symbol ":" >> under .value expression) >>
      body)

def catchClause : R :=
  node .catchClause
    (keyword "catch" >>
      enclosed "(" ")"
        (node .catchFormalParameter
          (modifiers >> node .catchType (separated "|" plainType) >> declaratorId)) >>
      under .body block)

def finallyClause : R := node .finallyClause (keyword "finally" >> block)

def tryStatement : R :=
  node .tryStatement
    (keyword "try" >> under .body block >>
      ((many catchClause >> finallyClause) <|> oneOrMore catchClause))

def resource : R :=
  node .resource (choice [
    modifiers >> typed >> declaratorId >> symbol "=" >> under .value expression,
    only (fun f => f == .identifier || f == .fieldAccess) primary])

def resources : R :=
  node .resourceSpecification
    (enclosed "(" ")" (separated ";" resource >> perhaps (symbol ";")))

def tryWithResources : R :=
  node .tryWithResourcesStatement
    (keyword "try" >> under .resources resources >> under .body block >> many catchClause >>
      perhaps finallyClause)

def simple (form : Form) (word : String) (rest : R) : R :=
  node form (keyword word >> rest >> symbol ";")

def statementRule : R :=
  choice [
    block,
    symbol ";",
    ifStatement,
    forStatement,
    enhancedForStatement,
    whileStatement,
    doStatement,
    tryWithResources,
    tryStatement,
    simple .returnStatement "return" (perhaps expression),
    switch,
    node .synchronizedStatement
      (keyword "synchronized" >> call .parenthesized >> under .body block),
    throwStatement,
    simple .breakStatement "break" (perhaps identifier),
    simple .continueStatement "continue" (perhaps identifier),
    simple .assertStatement "assert" (expression >> perhaps (symbol ":" >> expression)),
    simple .yieldStatement "yield" expression,
    node .labeledStatement (identifier >> symbol ":" >> statement),
    call .typeDeclaration,
    localVariables,
    expressionStatement]

/-! ### Declarations -/

def superInterfaces : R :=
  under .interfaces (perhaps (node .superInterfaces (keyword "implements" >> typeList)))

def permits : R :=
  under .permits (perhaps (node .permits (keyword "permits" >> typeList)))

def classBody : R := under .body (call .classBody)

def superclass : R :=
  under .superclass (perhaps (node .superclass (keyword "extends" >> type)))

def classDeclaration : R :=
  node .classDeclaration
    (modifiers >> keyword "class" >> name >> maybeTypeParameters >> superclass >>
      superInterfaces >> permits >> classBody)

def recordDeclaration : R :=
  node .recordDeclaration
    (modifiers >> keyword "record" >> name >> maybeTypeParameters >>
      under .parameters (call .formalParameters) >> superInterfaces >> classBody)

def throwsClause : R :=
  perhaps (node .throws (keyword "throws" >> separated "," type))

def methodDeclaration : R :=
  node .methodDeclaration
    (modifiers >> perhaps (under .typeParameters (call .typeParameters) >> annotations) >> typed >>
      name >> under .parameters (call .formalParameters) >> maybeDimensions >> throwsClause >>
      (under .body block <|> symbol ";"))

def constantDeclaration : R := node .constantDeclaration typedDeclarators

def nestedTypes : R := call .typeDeclaration

def interfaceBody : R :=
  node .interfaceBody
    (braces (many (choice [symbol ";", nestedTypes, methodDeclaration, constantDeclaration])))

def extendsInterfaces : R :=
  perhaps (node .extendsInterfaces (keyword "extends" >> typeList))

def interfaceDeclaration : R :=
  node .interfaceDeclaration
    (modifiers >> keyword "interface" >> name >> maybeTypeParameters >> extendsInterfaces >>
      permits >> under .body interfaceBody)

def annotationElement : R :=
  node .annotationTypeElementDeclaration
    (modifiers >> typed >> name >> symbol "(" >> symbol ")" >> maybeDimensions >>
      perhaps (keyword "default" >> under .value (call .elementValue)) >> symbol ";")

def annotationTypeDeclaration : R :=
  node .annotationTypeDeclaration
    (modifiers >> symbol "@" >> keyword "interface" >> name >>
      under .body (node .annotationTypeBody
        (braces
          (many (choice [symbol ";", nestedTypes, annotationElement, constantDeclaration])))))

def enumConstant : R :=
  node .enumConstant
    (modifiers >> name >> under .arguments (perhaps (call .argumentList)) >>
      under .body (perhaps (call .classBody)))

def constructorInvocation : R :=
  node .explicitConstructorInvocation
    (choice [
        maybeTypeArguments >> under .constructor (this <|> super) >> arguments,
        under .object primary >> symbol "." >> maybeTypeArguments >> under .constructor super >>
          arguments] >>
      symbol ";")

def constructorBody : R :=
  node .constructorBody (braces (perhaps constructorInvocation >> many statement))

def constructorDeclaration : R :=
  node .constructorDeclaration
    (modifiers >> maybeTypeParameters >> name >> under .parameters (call .formalParameters) >>
      throwsClause >> under .body constructorBody)

def classMember : R :=
  choice [
    symbol ";",
    block,
    node .staticInitializer (keyword "static" >> block),
    nestedTypes,
    constructorDeclaration,
    methodDeclaration,
    node .fieldDeclaration typedDeclarators,
    node .compactConstructorDeclaration (modifiers >> name >> under .body block)]

def enumBody : R :=
  node .enumBody
    (braces
      (list enumConstant >> perhaps (symbol ",") >>
        perhaps (node .enumBodyDeclarations (symbol ";" >> many classMember))))

def enumDeclaration : R :=
  node .enumDeclaration
    (modifiers >> keyword "enum" >> name >> superInterfaces >> under .body enumBody)

def typeDeclaration : R :=
  choice [classDeclaration, interfaceDeclaration, enumDeclaration, recordDeclaration,
    annotationTypeDeclaration]

/-! ### Packages, imports and modules -/

def packageDeclaration : R :=
  node .packageDeclaration (annotations >> keyword "package" >> qualifiedName >> symbol ";")

def importDeclaration : R :=
  node .importDeclaration
    (keyword "import" >> perhaps (keyword "static") >> qualifiedName >>
      perhaps (symbol "." >> leaf .asterisk (Lexeme.isSymbol "*")) >> symbol ";")

def moduleNames (word : String) : R :=
  perhaps (keyword word >> separated "," (under .modules qualifiedName))

def packageDirective (form : Form) (word : String) : R :=
  node form
    (keyword word >> under .packageName qualifiedName >> moduleNames "to" >> symbol ";")

def moduleDirective : R :=
  choice [
    node .requiresModuleDirective
      (keyword "requires" >>
        many (under .modifiers (words .requiresModifier ["transitive", "static"])) >>
        under .moduleName qualifiedName >> symbol ";"),
    packageDirective .exportsModuleDirective "exports",
    packageDirective .opensModuleDirective "opens",
    node .usesModuleDirective (keyword "uses" >> under .type qualifiedName >> symbol ";"),
    node .providesModuleDirective
      (keyword "provides" >> under .provided qualifiedName >> keyword "with" >> qualifiedName >>
        many (symbol "," >> under .provider qualifiedName) >> symbol ";")]

def moduleDeclaration : R :=
  node .moduleDeclaration
    (annotations >> perhaps (keyword "open") >> keyword "module" >> under .name qualifiedName >>
      under .body (node .moduleBody (braces (many moduleDirective))))

def compilationUnit : R :=
  many (choice [packageDeclaration, importDeclaration, moduleDeclaration, statement,
    methodDeclaration])

/-! ### All categories -/

def grammar : Category → R
  | .expression label => ternary label
  | .level n label => level n label
  | .operand label => operand label
  | .primary => chain primaryBase primaryLink
  | .parenthesized => parenthesized
  | .argumentList => argumentList
  | .stringLiteral => stringLiteral
  | .creation => creation
  | .switch => switchExpression
  | .recordPattern => recordPattern
  | .type => annotatedType <|> plainType
  | .plainType => arrayOrSimpleType
  | .simpleType => simpleType
  | .typeArguments => typeArguments
  | .typeParameters => typeParameters
  | .formalParameters => formalParameters
  | .annotationUse => annotationRule
  | .elementValue => elementValue
  | .modifiers => modifierList
  | .variableInitializer => arrayInitializer <|> expression
  | .block => node .block (braces (many statement))
  | .statement => statementRule
  | .classBody => node .classBody (braces (many classMember))
  | .typeDeclaration => typeDeclaration

end Grammar

end Retrace.Java
