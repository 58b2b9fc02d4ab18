import TreeRules.Ruleset.Entry
import TreeRules.Ruleset.Reader

/-! # Rules for Python -/
namespace TreeRules.Builtin.Python
open Ruleset.Entry

def keywords : List String :=
  ["def", "class", "return", "if", "elif", "else", "for", "while", "in", "import", "from", "as",
    "pass", "break", "continue", "try", "except", "finally", "with", "yield", "lambda", "raise",
    "global", "nonlocal", "assert", "del", "not", "and", "or", "is", "async", "await"]

/-- The functions that every program knows. -/
def builtinNames : List String :=
  ["abs", "all", "any", "bool", "dict", "enumerate", "filter", "float", "getattr", "hasattr", "int",
    "isinstance", "iter", "len", "list", "map", "max", "min", "next", "open", "print", "range",
    "repr", "reversed", "set", "setattr", "sorted", "str", "sum", "super", "tuple", "type", "zip"]

def bracketed : List String :=
  ["argument_list", "parameters", "list", "tuple", "dictionary", "set", "parenthesized_expression",
    "list_comprehension", "dictionary_comprehension", "set_comprehension", "generator_expression"]

/-- Node types that a block follows. -/
def blockOpeners : List String :=
  ["function_definition", "class_definition", "if_statement", "elif_clause", "else_clause",
    "for_statement", "while_statement", "with_statement", "try_statement", "except_clause",
    "finally_clause"]

def expressions : List String :=
  ["call", "attribute", "subscript", "binary_operator", "boolean_operator", "comparison_operator",
    "unary_operator", "not_operator", "conditional_expression", "list", "dictionary", "tuple",
    "set", ".*_comprehension", "parenthesized_expression"]

def operators : List String :=
  ["+", "-", "*", "/", "%", "**", "//", "==", "!=", "<", ">", "<=", ">=", "=", "+=", "-=", "->"]

def oneOf (patterns : List String) : String := "|".intercalate patterns

def tokens (signs : List String) (capture : String) : String :=
  let quoted := signs.map fun sign => "\"" ++ sign ++ "\""
  "[" ++ " ".intercalate quoted ++ "] @" ++ capture

/-- A query of several parts, each on a line of its own. -/
def lines (parts : List String) : String :=
  let margin := "\n                    "
  String.join (parts.map (margin ++ ·)) ++ margin

def levels : List (List String) :=
  [["comment", "definition"],
    ["keyword", "string", "type"],
    ["docstring", "number", "constant", "decorator", "builtin"],
    ["function", "property", "bracket", "operator", "variable"]]

def highlights : List Value :=
  [highlight "Comments" "comment" "(comment) @comment",
    highlight "Function names" "definition"
      "(function_definition name: (identifier) @function-name)",
    highlight "Class names" "definition" "(class_definition name: (identifier) @type-name)",
    highlight "Parameters" "definition" "(parameters (identifier) @variable-name)",
    highlight "Keywords" "keyword" (tokens keywords "keyword"),
    highlight "Strings" "string" "(string) @string",
    highlight "Annotations" "type" "(type (identifier) @type)",
    highlight "Base classes" "type"
      "(class_definition superclasses: (argument_list (identifier) @type))",
    highlight "Docstrings" "docstring"
      (lines ["(module . (expression_statement (string) @docstring))",
        "(block . (expression_statement (string) @docstring))"])
      .override,
    highlight "Numbers" "number" "[(integer) (float)] @number",
    highlight "Literal constants" "constant" "[(true) (false) (none)] @constant",
    highlight "Upper-case names" "constant" "(identifier) @constant" .append
      [tagged (hasText "^[A-Z][A-Z0-9_]+$") "constant", dropped],
    highlight "Decorators" "decorator" "(decorator) @decorator",
    highlight "Builtin calls" "builtin" "(call function: (identifier) @builtin)" .append
      [tagged (hasText ("^(" ++ oneOf builtinNames ++ ")$")) "builtin", dropped],
    highlight "Function calls" "function"
      (lines ["(call function: (identifier) @function-call)",
        "(call function: (attribute attribute: (identifier) @function-call))"])
      .keep,
    highlight "Attributes" "property" "(attribute attribute: (identifier) @property)" .keep,
    highlight "Brackets" "bracket" (tokens ["(", ")", "[", "]", "\x7b", "\x7d"] "bracket"),
    highlight "Operators" "operator" (tokens operators "operator"),
    highlight "Variables" "variable" "(identifier) @variable" .keep]

def indents : List Value :=
  [indent "Top-level statements" (parent "module") .margin,
    indent "Closing brackets" (node "\\)|\\]|\\\x7d") .parentLine,
    indent "Dotted continuation lines" (all [node "\\.", parent "attribute"]) .memberChain false
      ["attribute", "call"],
    indent "Compound statement bodies" (node "block") .parentLine true,
    indent "Continuation clauses" (node "else_clause|elif_clause|except_clause|finally_clause")
      .parentLine,
    indent "Statements in a block" (parent "block") .parentLine,
    indent "Bracketed continuation" (parent (oneOf bracketed)) .parentLine true,
    indent "Blank line or comment after a block opener"
      (all [any [noNode, node "comment"], parent (oneOf blockOpeners)]) .parentLine true,
    indent "String interiors" (all [noNode, parent "string|string_content"]) .previousLine,
    indent "Everything else" always .parentLine]

def things : List Value :=
  [thing "Comments" (node "comment") .comment,
    thing "Strings" (node "string") .string,
    thing "Definitions" (node "function_definition|class_definition") .definition,
    thing "Statements" (node ".*_statement") .statement,
    thing "Expressions" (node (oneOf expressions)) .expression]

/-- A highlight rule whose refinements have no name of their own. -/
def unnamed (rule : HighlightRule) : HighlightRule :=
  { rule with refine := { rule.refine with name := "" } }

def rules : Outcome LanguageRules := do
  let document := document "python" "python" levels highlights indents things []
  let rules ← LanguageRules.ofDocument document "python"
  return { rules with
    highlight := { rules.highlight with rules := rules.highlight.rules.map unnamed } }

end TreeRules.Builtin.Python
