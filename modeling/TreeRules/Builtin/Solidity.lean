import TreeRules.Ruleset.Entry
import TreeRules.Ruleset.Reader

/-! # Rules for Solidity -/
namespace TreeRules.Builtin.Solidity
open Ruleset.Entry

def lines (parts : List String) : String := String.join (parts.map (· ++ "\n"))

/-- A query part that captures the name of a declaration. -/
def namedBy (capture kind : String) : String :=
  "(" ++ kind ++ " name: (identifier) @" ++ capture ++ ")"

def levels : List (List String) :=
  [["comment", "definition"],
    ["keyword", "string", "type"],
    ["doc-comment", "number", "constant"],
    ["bracket"]]

def highlights : List Value :=
  [highlight "Comments" "comment" "(comment) @comment",
    highlight "NatSpec comments" "doc-comment" "(comment) @doc-comment" .override
      [tagged (hasText "^(///|/\\*\\*)") "doc-comment", dropped],
    highlight "Type definitions" "definition"
      (lines (["contract_declaration", "interface_declaration", "library_declaration",
        "struct_declaration", "enum_declaration"].map (namedBy "type-name"))),
    highlight "Callable definitions" "definition"
      (lines (["function_definition", "modifier_definition", "event_definition"].map
        (namedBy "function-name"))),
    highlight "Keywords" "keyword"
      (lines ["[",
        "  \"pragma\" \"import\" \"contract\" \"interface\" \"library\" \"is\"",
        "  \"function\" \"modifier\" \"event\" \"struct\" \"enum\" \"returns\"",
        "  \"return\" \"if\" \"else\" \"for\" \"while\" \"emit\" \"new\" \"mapping\"",
        "  \"constructor\" \"using\"",
        "] @keyword"]),
    highlight "Strings" "string" "(string) @string",
    highlight "Types" "type" "(type_name) @type",
    highlight "Numbers" "number" "(number_literal) @number",
    highlight "Booleans" "constant" "(boolean_literal) @constant",
    highlight "Brackets" "bracket" "[\"(\" \")\" \"[\" \"]\" \"\x7b\" \"\x7d\"] @bracket"]

def indents : List Value :=
  [indent "Closing brackets" (node "\\\x7d|\\)|\\]") .parentLine,
    indent "Block comment interiors" (all [noNode, parent "comment"]) .commentText,
    indent "Top-level declarations" (parent "source_file") .margin,
    indent "Bodies" (parent ".*_body|block_statement") .parentLine true,
    indent "Argument and parameter lists" (parent ".*_arguments?|.*parameters?|call_argument")
      .parentLine true,
    indent "Everything else" always .parentLine]

/-- The pattern of the node types that define something. -/
def definitions : String :=
  "(contract|interface|library|struct|enum)_declaration|" ++
    "(function|modifier|event|constructor)_definition"

/-- A string that is no name of a type. -/
def plainString : Value :=
  .mapping [("node", .text "string"), ("not", parent "primitive_type|type_name")]

def things : List Value :=
  [thing "Comments" (node "comment") .comment,
    thing "Strings" plainString .string,
    thing "Definitions" (node definitions) .definition,
    thing "Statements" (node ".*_statement") .statement,
    thing "Expressions" (node ".*_expression") .expression]

def names : List (String × Value) :=
  [("constructor_definition", .mapping [("child", .int 0)])]

def rules : Outcome LanguageRules :=
  LanguageRules.ofDocument (document "default" "solidity" levels highlights indents things names)
    "default"

end TreeRules.Builtin.Solidity
