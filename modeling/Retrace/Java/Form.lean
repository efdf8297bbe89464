/-! The forms of Java syntax.

Every node of a syntax tree has a form, and may hang off its parent under a field. Punctuation,
keywords and comments are no nodes. `Form.name` and `Field.text` are the names that the outside
world knows them by. -/
namespace Retrace.Java

inductive Form
  | program
  | decimalIntegerLiteral
  | hexIntegerLiteral
  | octalIntegerLiteral
  | binaryIntegerLiteral
  | decimalFloatingPointLiteral
  | hexFloatingPointLiteral
  | trueLiteral
  | falseLiteral
  | characterLiteral
  | stringLiteral
  | stringFragment
  | multilineStringFragment
  | escapeSequence
  | stringInterpolation
  | nullLiteral
  | castExpression
  | assignmentExpression
  | binaryExpression
  | instanceofExpression
  | lambdaExpression
  | inferredParameters
  | ternaryExpression
  | unaryExpression
  | updateExpression
  | arrayCreationExpression
  | dimensionsExpr
  | parenthesizedExpression
  | classLiteral
  | objectCreationExpression
  | fieldAccess
  | templateExpression
  | arrayAccess
  | methodInvocation
  | argumentList
  | methodReference
  | typeArguments
  | wildcard
  | dimensions
  | switchExpression
  | switchBlock
  | switchBlockStatementGroup
  | switchRule
  | switchLabel
  | pattern
  | typePattern
  | recordPattern
  | recordPatternBody
  | recordPatternComponent
  | underscorePattern
  | guard
  | thisReference
  | superReference
  | identifier
  | block
  | expressionStatement
  | labeledStatement
  | assertStatement
  | doStatement
  | breakStatement
  | continueStatement
  | returnStatement
  | yieldStatement
  | synchronizedStatement
  | throwStatement
  | tryStatement
  | catchClause
  | catchFormalParameter
  | catchType
  | finallyClause
  | tryWithResourcesStatement
  | resourceSpecification
  | resource
  | ifStatement
  | whileStatement
  | forStatement
  | enhancedForStatement
  | localVariableDeclaration
  | annotationMarker
  | annotationCall
  | annotationArgumentList
  | elementValuePair
  | elementValueArrayInitializer
  | moduleDeclaration
  | moduleBody
  | requiresModuleDirective
  | requiresModifier
  | exportsModuleDirective
  | opensModuleDirective
  | usesModuleDirective
  | providesModuleDirective
  | packageDeclaration
  | importDeclaration
  | asterisk
  | enumDeclaration
  | enumBody
  | enumBodyDeclarations
  | enumConstant
  | classDeclaration
  | modifiers
  | typeParameters
  | typeParameter
  | typeBound
  | superclass
  | superInterfaces
  | typeList
  | permits
  | classBody
  | staticInitializer
  | constructorDeclaration
  | constructorBody
  | explicitConstructorInvocation
  | scopedIdentifier
  | fieldDeclaration
  | recordDeclaration
  | annotationTypeDeclaration
  | annotationTypeBody
  | annotationTypeElementDeclaration
  | interfaceDeclaration
  | extendsInterfaces
  | interfaceBody
  | constantDeclaration
  | variableDeclarator
  | arrayInitializer
  | formalParameters
  | formalParameter
  | receiverParameter
  | spreadParameter
  | throws
  | methodDeclaration
  | compactConstructorDeclaration
  | annotatedType
  | scopedTypeIdentifier
  | genericType
  | arrayType
  | integralType
  | floatingPointType
  | booleanType
  | voidType
  | typeIdentifier
  deriving DecidableEq, Repr, Inhabited

namespace Form

def name : Form → String
  | program => "program"
  | decimalIntegerLiteral => "decimal_integer_literal"
  | hexIntegerLiteral => "hex_integer_literal"
  | octalIntegerLiteral => "octal_integer_literal"
  | binaryIntegerLiteral => "binary_integer_literal"
  | decimalFloatingPointLiteral => "decimal_floating_point_literal"
  | hexFloatingPointLiteral => "hex_floating_point_literal"
  | trueLiteral => "true"
  | falseLiteral => "false"
  | characterLiteral => "character_literal"
  | stringLiteral => "string_literal"
  | stringFragment => "string_fragment"
  | multilineStringFragment => "multiline_string_fragment"
  | escapeSequence => "escape_sequence"
  | stringInterpolation => "string_interpolation"
  | nullLiteral => "null_literal"
  | castExpression => "cast_expression"
  | assignmentExpression => "assignment_expression"
  | binaryExpression => "binary_expression"
  | instanceofExpression => "instanceof_expression"
  | lambdaExpression => "lambda_expression"
  | inferredParameters => "inferred_parameters"
  | ternaryExpression => "ternary_expression"
  | unaryExpression => "unary_expression"
  | updateExpression => "update_expression"
  | arrayCreationExpression => "array_creation_expression"
  | dimensionsExpr => "dimensions_expr"
  | parenthesizedExpression => "parenthesized_expression"
  | classLiteral => "class_literal"
  | objectCreationExpression => "object_creation_expression"
  | fieldAccess => "field_access"
  | templateExpression => "template_expression"
  | arrayAccess => "array_access"
  | methodInvocation => "method_invocation"
  | argumentList => "argument_list"
  | methodReference => "method_reference"
  | typeArguments => "type_arguments"
  | wildcard => "wildcard"
  | dimensions => "dimensions"
  | switchExpression => "switch_expression"
  | switchBlock => "switch_block"
  | switchBlockStatementGroup => "switch_block_statement_group"
  | switchRule => "switch_rule"
  | switchLabel => "switch_label"
  | pattern => "pattern"
  | typePattern => "type_pattern"
  | recordPattern => "record_pattern"
  | recordPatternBody => "record_pattern_body"
  | recordPatternComponent => "record_pattern_component"
  | underscorePattern => "underscore_pattern"
  | guard => "guard"
  | thisReference => "this"
  | superReference => "super"
  | identifier => "identifier"
  | block => "block"
  | expressionStatement => "expression_statement"
  | labeledStatement => "labeled_statement"
  | assertStatement => "assert_statement"
  | doStatement => "do_statement"
  | breakStatement => "break_statement"
  | continueStatement => "continue_statement"
  | returnStatement => "return_statement"
  | yieldStatement => "yield_statement"
  | synchronizedStatement => "synchronized_statement"
  | throwStatement => "throw_statement"
  | tryStatement => "try_statement"
  | catchClause => "catch_clause"
  | catchFormalParameter => "catch_formal_parameter"
  | catchType => "catch_type"
  | finallyClause => "finally_clause"
  | tryWithResourcesStatement => "try_with_resources_statement"
  | resourceSpecification => "resource_specification"
  | resource => "resource"
  | ifStatement => "if_statement"
  | whileStatement => "while_statement"
  | forStatement => "for_statement"
  | enhancedForStatement => "enhanced_for_statement"
  | localVariableDeclaration => "local_variable_declaration"
  | annotationMarker => "marker_annotation"
  | annotationCall => "annotation"
  | annotationArgumentList => "annotation_argument_list"
  | elementValuePair => "element_value_pair"
  | elementValueArrayInitializer => "element_value_array_initializer"
  | moduleDeclaration => "module_declaration"
  | moduleBody => "module_body"
  | requiresModuleDirective => "requires_module_directive"
  | requiresModifier => "requires_modifier"
  | exportsModuleDirective => "exports_module_directive"
  | opensModuleDirective => "opens_module_directive"
  | usesModuleDirective => "uses_module_directive"
  | providesModuleDirective => "provides_module_directive"
  | packageDeclaration => "package_declaration"
  | importDeclaration => "import_declaration"
  | asterisk => "asterisk"
  | enumDeclaration => "enum_declaration"
  | enumBody => "enum_body"
  | enumBodyDeclarations => "enum_body_declarations"
  | enumConstant => "enum_constant"
  | classDeclaration => "class_declaration"
  | modifiers => "modifiers"
  | typeParameters => "type_parameters"
  | typeParameter => "type_parameter"
  | typeBound => "type_bound"
  | superclass => "superclass"
  | superInterfaces => "super_interfaces"
  | typeList => "type_list"
  | permits => "permits"
  | classBody => "class_body"
  | staticInitializer => "static_initializer"
  | constructorDeclaration => "constructor_declaration"
  | constructorBody => "constructor_body"
  | explicitConstructorInvocation => "explicit_constructor_invocation"
  | scopedIdentifier => "scoped_identifier"
  | fieldDeclaration => "field_declaration"
  | recordDeclaration => "record_declaration"
  | annotationTypeDeclaration => "annotation_type_declaration"
  | annotationTypeBody => "annotation_type_body"
  | annotationTypeElementDeclaration => "annotation_type_element_declaration"
  | interfaceDeclaration => "interface_declaration"
  | extendsInterfaces => "extends_interfaces"
  | interfaceBody => "interface_body"
  | constantDeclaration => "constant_declaration"
  | variableDeclarator => "variable_declarator"
  | arrayInitializer => "array_initializer"
  | formalParameters => "formal_parameters"
  | formalParameter => "formal_parameter"
  | receiverParameter => "receiver_parameter"
  | spreadParameter => "spread_parameter"
  | throws => "throws"
  | methodDeclaration => "method_declaration"
  | compactConstructorDeclaration => "compact_constructor_declaration"
  | annotatedType => "annotated_type"
  | scopedTypeIdentifier => "scoped_type_identifier"
  | genericType => "generic_type"
  | arrayType => "array_type"
  | integralType => "integral_type"
  | floatingPointType => "floating_point_type"
  | booleanType => "boolean_type"
  | voidType => "void_type"
  | typeIdentifier => "type_identifier"

/-- The forms that the analysis tells apart have a label of their own. -/
def label : Form → String
  | program => "Program"
  | classDeclaration => "ClassDeclaration"
  | classBody => "ClassBody"
  | methodDeclaration => "MethodDeclaration"
  | constructorDeclaration => "ConstructorDeclaration"
  | constructorBody => "ConstructorBody"
  | explicitConstructorInvocation => "ExplicitConstructorInvocation"
  | staticInitializer => "StaticInitializer"
  | lambdaExpression => "LambdaExpression"
  | objectCreationExpression => "ObjectCreationExpression"
  | block => "Block"
  | ifStatement => "IfStatement"
  | forStatement => "ForStatement"
  | enhancedForStatement => "EnhancedForStatement"
  | whileStatement => "WhileStatement"
  | doStatement => "DoStatement"
  | expressionStatement => "ExpressionStatement"
  | localVariableDeclaration => "LocalVariableDeclaration"
  | fieldDeclaration => "FieldDeclaration"
  | variableDeclarator => "VariableDeclarator"
  | methodInvocation => "MethodInvocation"
  | methodReference => "MethodReference"
  | parenthesizedExpression => "ParenthesizedExpression"
  | identifier => "Identifier"
  | _ => "Other"

def isLoop : Form → Bool
  | forStatement => true
  | enhancedForStatement => true
  | whileStatement => true
  | doStatement => true
  | _ => false

end Form

inductive Field
  | type
  | value
  | left
  | right
  | parameters
  | body
  | condition
  | consequence
  | alternative
  | operand
  | dimensions
  | typeArguments
  | arguments
  | object
  | field
  | templateProcessor
  | templateArgument
  | array
  | index
  | name
  | pattern
  | resources
  | init
  | update
  | key
  | moduleName
  | modifiers
  | packageName
  | modules
  | provided
  | provider
  | interfaces
  | typeParameters
  | declarator
  | superclass
  | permits
  | constructor
  | scope
  | element
  deriving DecidableEq, Repr, Inhabited

def Field.text : Field → String
  | .type => "type"
  | .value => "value"
  | .left => "left"
  | .right => "right"
  | .parameters => "parameters"
  | .body => "body"
  | .condition => "condition"
  | .consequence => "consequence"
  | .alternative => "alternative"
  | .operand => "operand"
  | .dimensions => "dimensions"
  | .typeArguments => "type_arguments"
  | .arguments => "arguments"
  | .object => "object"
  | .field => "field"
  | .templateProcessor => "template_processor"
  | .templateArgument => "template_argument"
  | .array => "array"
  | .index => "index"
  | .name => "name"
  | .pattern => "pattern"
  | .resources => "resources"
  | .init => "init"
  | .update => "update"
  | .key => "key"
  | .moduleName => "module"
  | .modifiers => "modifiers"
  | .packageName => "package"
  | .modules => "modules"
  | .provided => "provided"
  | .provider => "provider"
  | .interfaces => "interfaces"
  | .typeParameters => "type_parameters"
  | .declarator => "declarator"
  | .superclass => "superclass"
  | .permits => "permits"
  | .constructor => "constructor"
  | .scope => "scope"
  | .element => "element"

end Retrace.Java
