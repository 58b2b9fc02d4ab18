import Mathlib.Data.List.Basic
import Mathlib.Tactic.Common
import TreeRules.Proofs.Predicate.Fitness
import TreeRules.Proofs.Value.Entries

/-! # Predicates in writing

Every predicate can be written as an entry of a rule document that is read as the same predicate. A
mapping with one test is read as the test itself and not as a list with one test in it, so the entry
of each part is a mapping with one test, and no list of tests comes or goes. Left out are lists
without a test, and chains that use the word for an absent node as a pattern.
-/
namespace TreeRules

/-! ## Values with distinct keys -/

namespace Value

mutual

/-- No mapping in a value has a key twice. -/
def Proper : Value → Prop
  | .list items => ProperItems items
  | .mapping entries => (entries.map Prod.fst).Nodup ∧ ProperEntries entries
  | _ => True

def ProperItems : List Value → Prop
  | [] => True
  | item :: rest => item.Proper ∧ ProperItems rest

def ProperEntries : List (String × Value) → Prop
  | [] => True
  | (_, value) :: rest => value.Proper ∧ ProperEntries rest

end

theorem IsText.proper {value : Value} (h : value.IsText) : value.Proper := by
  obtain ⟨content, rfl⟩ := h
  trivial

end Value

/-! ## Writing -/

namespace Link

/-- A link can be written: the word for an absent node is not its pattern. -/
def Sayable : Link → Prop
  | .kind pattern => pattern.source ≠ "nil"
  | _ => True

def toValue : Link → Value
  | .any => .null
  | .absent => .text "nil"
  | .kind pattern => .text pattern.source

end Link

namespace Predicate

/-- A predicate can be written as soon as the predicates in it can. -/
def Sayable : Predicate → Prop
  | .chain node parent grandparent => node.Sayable ∧ parent.Sayable ∧ grandparent.Sayable
  | .fieldIs field _ => field.IsText
  | .captured query capture => query.IsText ∧ capture.IsText
  | .textHas _ field => field = .null ∨ field.IsText
  | .all tests | .any tests => tests ≠ []
  | _ => True

mutual

/-- The entry of a rule document for a predicate. -/
def toValue : Predicate → Value
  | .nodeIs pattern => .mapping [("node", .text pattern.source)]
  | .parentIs pattern => .mapping [("parent", .text pattern.source)]
  | .chain node parent grandparent =>
    .mapping [("chain", .list [node.toValue, parent.toValue, grandparent.toValue])]
  | .fieldIs field inner =>
    .mapping [("field", .mapping [("name", field), ("match", toValue inner)])]
  | .captured query capture => .mapping [("query", query), ("capture", capture)]
  | .textHas pattern field => .mapping [("text", .text pattern.source), ("text_field", field)]
  | .lineHas pattern => .mapping [("line", .text pattern.source)]
  | .noNode => .text "no-node"
  | .always => .text "always"
  | .all tests => .mapping [("all", .list (toValues tests))]
  | .any tests => .mapping [("any", .list (toValues tests))]
  | .not test => .mapping [("not", toValue test)]

def toValues : List Predicate → List Value
  | [] => []
  | test :: rest => toValue test :: toValues rest

end

/-! ## Reading what was written -/

theorem ofValue_source (use : PatternUse) (pattern : Pattern) :
    Pattern.ofValue use (.text pattern.source) = .ok pattern := by
  rw [Pattern.ofValue, pattern.ofText?_source]

theorem linkOf_toValue {link : Link} (h : link.Sayable) : linkOf link.toValue = .ok link := by
  cases link with
  | any => rfl
  | absent => rfl
  | kind pattern =>
    have hpattern := ofValue_source .type pattern
    rw [Link.toValue, linkOf]
    · rw [hpattern]
      rfl
    · intro hnull
      cases hnull
    · intro hnil
      exact h (Value.text.inj hnil)

theorem partsOf_eq_map (whole entries : List (String × Value)) :
    partsOf whole entries = entries.map fun entry => (entry.1, partOf whole entry.1 entry.2) := by
  induction entries with
  | nil => rw [partsOf, List.map_nil]
  | cons entry rest ih =>
    obtain ⟨key, value⟩ := entry
    rw [partsOf, ih, List.map_cons]

theorem lookup_partsOf (whole entries : List (String × Value)) (key : String) :
    (partsOf whole entries).lookup key = (entries.lookup key).map (partOf whole key) := by
  rw [partsOf_eq_map, Entries.lookup_map_value]

theorem inOrder_eq_nil {parts : List (String × Outcome (Option Predicate))} {keys : List String}
    (h : ∀ key ∈ keys, parts.lookup key = none) : inOrder parts keys = .ok [] := by
  induction keys with
  | nil => rfl
  | cons key rest ih =>
    obtain ⟨hkey, hrest⟩ := List.forall_mem_cons.mp h
    rw [inOrder, hkey]
    exact ih hrest

theorem inOrder_eq_singleton {parts : List (String × Outcome (Option Predicate))}
    {keys : List String} {key : String} {test : Predicate} (hkeys : keys.Nodup) (hkey : key ∈ keys)
    (htest : parts.lookup key = some (.ok (some test)))
    (hothers : ∀ other ∈ keys, other ≠ key → parts.lookup other = none) :
    inOrder parts keys = .ok [test] := by
  induction keys with
  | nil => cases hkey
  | cons first rest ih =>
    obtain ⟨hfirst, hrest⟩ := List.nodup_cons.mp hkeys
    by_cases heq : first = key
    · subst heq
      have hnil : inOrder parts rest = .ok [] := by
        apply inOrder_eq_nil
        intro other hother
        exact hothers other (List.mem_cons_of_mem _ hother) (ne_of_mem_of_not_mem hother hfirst)
      rw [inOrder, htest]
      simp only [hnil]
      rfl
    · have hin : key ∈ rest := (List.mem_cons.mp hkey).resolve_left (Ne.symm heq)
      rw [inOrder, hothers first List.mem_cons_self heq]
      exact ih hrest hin fun other hother => hothers other (List.mem_cons_of_mem _ hother)

theorem order_nodup : order.Nodup := by decide

theorem mem_predicateKeys_of_mem_order {key : String} (h : key ∈ order) : key ∈ predicateKeys := by
  revert key
  decide

theorem unknownKeys_eq_nil_iff {entries : List (String × Value)} :
    unknownKeys entries = [] ↔ ∀ entry ∈ entries, entry.1 ∈ predicateKeys := by
  rw [← List.length_eq_zero_iff, unknownKeys, List.length_mergeSort, List.length_eq_zero_iff,
    List.filter_eq_nil_iff]
  simp

/-- A mapping with one test, and with further keys that are no tests, is read as this test. -/
theorem ofValue_mapping {key : String} {value : Value} {rest : List (String × Value)}
    {test : Predicate} (hkey : key ∈ order)
    (hrest : ∀ entry ∈ rest, entry.1 ∈ predicateKeys ∧ entry.1 ∉ order)
    (h : partOf ((key, value) :: rest) key value = .ok (some test)) :
    ofValue (.mapping ((key, value) :: rest)) = .ok test := by
  have hknown : unknownKeys ((key, value) :: rest) = [] := by
    rw [unknownKeys_eq_nil_iff, List.forall_mem_cons]
    exact ⟨mem_predicateKeys_of_mem_order hkey, fun entry hentry => (hrest entry hentry).1⟩
  have htest : (partsOf ((key, value) :: rest) ((key, value) :: rest)).lookup key =
      some (.ok (some test)) := by
    rw [lookup_partsOf, List.lookup_cons_self, Option.map_some, h]
  have hothers : ∀ other ∈ order, other ≠ key →
      (partsOf ((key, value) :: rest) ((key, value) :: rest)).lookup other = none := by
    intro other hother hne
    have hnone : ((key, value) :: rest).lookup other = none := by
      rw [List.lookup_eq_none_iff, List.forall_mem_cons]
      refine ⟨by simpa using hne, ?_⟩
      intro entry hentry
      have hdiffers : other ≠ entry.1 := ne_of_mem_of_not_mem hother (hrest entry hentry).2
      simpa using hdiffers
    rw [lookup_partsOf, hnone, Option.map_none]
  rw [ofValue, inOrder_eq_singleton order_nodup hkey htest hothers]
  simp [hknown, inDocument, combine]

theorem ofValue_sole {key : String} {value : Value} {test : Predicate} (hkey : key ∈ order)
    (h : partOf [(key, value)] key value = .ok (some test)) :
    ofValue (.mapping [(key, value)]) = .ok test :=
  ofValue_mapping hkey (List.forall_mem_nil _) h

theorem chainOf_toValue {node parent grandparent : Link} (hnode : node.Sayable)
    (hparent : parent.Sayable) (hgrandparent : grandparent.Sayable) :
    chainOf (.list [node.toValue, parent.toValue, grandparent.toValue]) =
      .ok (.chain node parent grandparent) := by
  rw [chainOf, linkOf_toValue hnode, linkOf_toValue hparent, linkOf_toValue hgrandparent]
  rfl

theorem fieldOf_mapping {field value : Value} {inner : Predicate} (h : ofValue value = .ok inner) :
    fieldOf (.mapping [("name", field), ("match", value)]) = .ok (.fieldIs field inner) := by
  have hname : Value.under? "name" [("name", field), ("match", value)] = some field := rfl
  have hmatch : matchOf [("name", field), ("match", value)] = some (.ok inner) := by
    simp [matchOf, h]
  rw [fieldOf, hname]
  simp only [hmatch]

theorem listOf_toValues (key : String) {tests : List Predicate} (hne : tests ≠ [])
    (h : itemsOf (toValues tests) = .ok tests) :
    listOf key (.list (toValues tests)) = .ok tests := by
  cases tests with
  | nil => exact absurd rfl hne
  | cons test rest =>
    rw [toValues] at h ⊢
    rw [listOf, h]

-- Each entry is read back by the key of its one test; what stands under the key is read by the
-- reader for that key, which comes back to the entries of the tests inside.
mutual

theorem ofValue_toValue (test : Predicate) (h : ∀ part ∈ test.parts, part.Sayable) :
    ofValue test.toValue = .ok test := by
  match test with
  | .nodeIs pattern =>
    rw [toValue]
    refine ofValue_sole (by decide) ?_
    rw [partOf, ofValue_source]
    rfl
  | .parentIs pattern =>
    rw [toValue]
    refine ofValue_sole (by decide) ?_
    rw [partOf, ofValue_source]
    rfl
  | .chain node parent grandparent =>
    obtain ⟨hnode, hparent, hgrandparent⟩ := h _ (self_mem_parts _)
    rw [toValue]
    refine ofValue_sole (by decide) ?_
    rw [partOf, chainOf_toValue hnode hparent hgrandparent]
    rfl
  | .fieldIs field inner =>
    rw [parts] at h
    have hinner := ofValue_toValue inner (List.forall_mem_cons.mp h).2
    rw [toValue]
    refine ofValue_sole (by decide) ?_
    rw [partOf, fieldOf_mapping hinner]
    rfl
  | .captured query capture =>
    rw [toValue]
    refine ofValue_mapping (by decide) (by simp [predicateKeys, order]) ?_
    rw [partOf]
    rfl
  | .textHas pattern field =>
    rw [toValue]
    refine ofValue_mapping (by decide) (by simp [predicateKeys, order]) ?_
    rw [partOf, ofValue_source]
    rfl
  | .lineHas pattern =>
    rw [toValue]
    refine ofValue_sole (by decide) ?_
    rw [partOf, ofValue_source]
    rfl
  | .noNode =>
    rw [toValue, ofValue]
    rfl
  | .always =>
    rw [toValue, ofValue]
    rfl
  | .all tests =>
    rw [parts] at h
    obtain ⟨hne, htests⟩ := List.forall_mem_cons.mp h
    rw [toValue]
    refine ofValue_sole (by decide) ?_
    rw [partOf, listOf_toValues "all" hne (itemsOf_toValues tests htests)]
    rfl
  | .any tests =>
    rw [parts] at h
    obtain ⟨hne, htests⟩ := List.forall_mem_cons.mp h
    rw [toValue]
    refine ofValue_sole (by decide) ?_
    rw [partOf, listOf_toValues "any" hne (itemsOf_toValues tests htests)]
    rfl
  | .not test =>
    rw [parts] at h
    have htest := ofValue_toValue test (List.forall_mem_cons.mp h).2
    rw [toValue]
    refine ofValue_sole (by decide) ?_
    rw [partOf, htest]
    rfl

theorem itemsOf_toValues (tests : List Predicate) (h : ∀ part ∈ partsOfAll tests, part.Sayable) :
    itemsOf (toValues tests) = .ok tests := by
  match tests with
  | [] =>
    rw [toValues, itemsOf]
  | test :: rest =>
    rw [partsOfAll] at h
    obtain ⟨htest, hrest⟩ := List.forall_mem_append.mp h
    rw [toValues, itemsOf, ofValue_toValue test htest, itemsOf_toValues rest hrest]
    rfl

end

/-! ## Entries with distinct keys -/

theorem proper_mapping {key : String} {value : Value} (h : value.Proper) :
    (Value.mapping [(key, value)]).Proper := by
  simp [Value.Proper, Value.ProperEntries, h]

theorem proper_link (link : Link) : link.toValue.Proper := by
  cases link <;> simp [Link.toValue, Value.Proper]

mutual

theorem proper_toValue (test : Predicate) (h : ∀ part ∈ test.parts, part.Sayable) :
    test.toValue.Proper := by
  match test with
  | .nodeIs pattern | .parentIs pattern | .lineHas pattern =>
    rw [toValue]
    exact proper_mapping trivial
  | .chain node parent grandparent =>
    rw [toValue]
    apply proper_mapping
    simp [Value.Proper, Value.ProperItems, proper_link]
  | .fieldIs field inner =>
    have hfield : field.IsText := h _ (self_mem_parts _)
    rw [parts] at h
    have hinner := proper_toValue inner (List.forall_mem_cons.mp h).2
    rw [toValue]
    apply proper_mapping
    simp [Value.Proper, Value.ProperEntries, hfield.proper, hinner]
  | .captured query capture =>
    obtain ⟨hquery, hcapture⟩ : query.IsText ∧ capture.IsText := h _ (self_mem_parts _)
    simp [toValue, Value.Proper, Value.ProperEntries, hquery.proper, hcapture.proper]
  | .textHas pattern field =>
    have hfield : field.Proper := by
      rcases h _ (self_mem_parts _) with rfl | htext
      · trivial
      · exact htext.proper
    simp [toValue, Value.Proper, Value.ProperEntries, hfield]
  | .noNode | .always =>
    rw [toValue]
    trivial
  | .all tests | .any tests =>
    rw [parts] at h
    have htests := proper_toValues tests (List.forall_mem_cons.mp h).2
    rw [toValue]
    exact proper_mapping htests
  | .not test =>
    rw [parts] at h
    rw [toValue]
    exact proper_mapping (proper_toValue test (List.forall_mem_cons.mp h).2)

theorem proper_toValues (tests : List Predicate) (h : ∀ part ∈ partsOfAll tests, part.Sayable) :
    Value.ProperItems (toValues tests) := by
  match tests with
  | [] =>
    rw [toValues]
    trivial
  | test :: rest =>
    rw [partsOfAll] at h
    obtain ⟨htest, hrest⟩ := List.forall_mem_append.mp h
    rw [toValues]
    exact ⟨proper_toValue test htest, proper_toValues rest hrest⟩

end

/-! ## Every predicate has an entry -/

/-- All parts of a predicate can be written. -/
def Expressible (test : Predicate) : Prop := ∀ part ∈ test.parts, part.Sayable

/-- What is written for a predicate is an entry without a key given twice, and it is read as the
predicate that was written. -/
theorem reads_back {test : Predicate} (h : test.Expressible) :
    test.toValue.Proper ∧ ofValue test.toValue = .ok test :=
  ⟨proper_toValue test h, ofValue_toValue test h⟩

/-- A list with one test in a list with two, one with a chain below a field. -/
def nestedTest : Predicate :=
  .any [.all [.not (.fieldIs (.text "body") (.chain (.kind letter) .any .absent))],
    .all [.captured (.text "(x) @x") (.text "x"), .textHas letter .null]]

theorem reads_back_nested : nestedTest.Expressible ∧ nestedTest.toValue.Proper ∧
    ofValue nestedTest.toValue = .ok nestedTest := by
  have h : nestedTest.Expressible := by
    simp [Expressible, nestedTest, parts, partsOfAll, Sayable, Link.Sayable, letter, Value.IsText]
  exact ⟨h, reads_back h⟩

end Predicate

end TreeRules
