import TreeRules.Document
import TreeRules.Value.Reader

/-! # Snapshots

Parsers and the query engine stand outside this library, so a document comes with what they found
out: the nodes of its tree in pre-order and the captures of its queries. A snapshot is that record
as a value. What is left out of a snapshot counts as empty.
-/
namespace TreeRules.Snapshot

/-! ## Parts of a record -/

/-- The value under a key, if the record has it. -/
def part? (key : String) : Value → Option Value
  | .mapping entries => Value.under? key entries
  | _ => none

/-- The value under a key; null if the record lacks it. -/
def part (key : String) (record : Value) : Value := (part? key record).getD .null

def items : Value → List Value
  | .list items => items
  | _ => []

/-- The item of a list with a number; null past its end. -/
def item (number : Nat) (list : Value) : Value := ((items list)[number]?).getD .null

def entries : Value → List (String × Value)
  | .mapping entries => entries
  | _ => []

/-- An integer; zero for anything else. -/
def int : Value → Int
  | .int number => number
  | _ => 0

def nat (value : Value) : Nat := (int value).toNat

/-- A text; the empty one for anything else. -/
def text : Value → String
  | .text content => content
  | _ => ""

def text? : Value → Option String
  | .text content => some content
  | _ => none

/-! ## Trees -/

/-- The label of a node, from its type, its bytes, its parent's number, whether it is named, and its
field. -/
def label (changed : List Nat) (id : Nat) (node : Value) : Label where
  id := id
  kind := text (item 0 node)
  start := nat (item 1 node)
  stop := nat (item 2 node)
  named := int (item 4 node) != 0
  field := text? (item 5 node)
  changed := changed.contains id

/-- A tree from its nodes in pre-order. From the last node to the first, each one takes the children
that were left for it and is left for its parent. -/
def treeOf (changed : List Nat) (nodes : List Value) : Tree :=
  let step (numbered : Value × Nat) (state : Array (List Tree) × Option Tree) :=
    let (node, id) := numbered
    let tree := Tree.node (label changed id node) (state.1.getD id [])
    (state.1.modify (nat (item 3 node)) (tree :: ·), some tree)
  let start := (Array.replicate nodes.length [], none)
  (nodes.zipIdx.foldr step start).2.getD (.node default [])

/-! ## Documents -/

/-- The byte that two hexadecimal digits denote. -/
def bytesOfHex : List Char → List UInt8
  | high :: low :: rest =>
    UInt8.ofNat ((Value.hexNumber? [high, low]).getD 0) :: bytesOfHex rest
  | _ => []

def bytesOf (file : Value) : List UInt8 :=
  match part? "source_hex" file with
  | some digits => bytesOfHex (text digits).toList
  | none => Utf8.encode (text (part "source" file)).toList

def range? : Value → Option (Int × Int)
  | .list [start, stop] => some (int start, int stop)
  | _ => none

/-- What the query engine captured among the places of a tree. -/
def capturesOf (places : Array Place) (runs : Value) (query : String)
    (range : Option (Int × Int)) : List (String × List Place) :=
  match (items runs).find? fun run =>
      text (part "query" run) == query && range? (part "range" run) == range with
  | some run =>
    (items (part "captures" run)).map fun entry =>
      (text (item 0 entry), (items (item 1 entry)).filterMap fun id => places[nat id]?)
  | none => []

def toolkitOf (record : Value) : Toolkit where
  grammar language :=
    let known := part language (part "languages" record)
    match part? "error" known with
    | some reason => .error (text reason)
    | none =>
      let has (kind name : String) : Bool := (part name (part kind known)).truthy
      .ok ⟨has "kinds", has "fields"⟩
  captureNames language query :=
    match (items (part "queries" record)).find? fun entry =>
        text (part "language" entry) == language && text (part "query" entry) == query with
    | some entry =>
      match part? "error" entry with
      | some reason => .error (text reason)
      | none => .ok ((items (part "names" entry)).map text)
    | none => .ok []

def documentOf (toolkit : Toolkit) (language : String) (file : Value) : Document :=
  let record := part "tree" file
  let tree := treeOf ((items (part "changed" record)).map nat) (items (part "nodes" record))
  { language
    source := Source.ofBytes (bytesOf file)
    tree
    tabWidth := match part? "tab_width" file with
      | some width => int width
      | none => 8
    captures := capturesOf tree.places.toArray (part "runs" file)
    toolkit }

end TreeRules.Snapshot
