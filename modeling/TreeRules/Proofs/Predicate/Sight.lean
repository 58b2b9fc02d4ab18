import Mathlib.Tactic.Common
import TreeRules.Proofs.FirstMatch

/-! # What predicates see

A predicate without queries looks at a target through little: the types of its node, its parent and
its grandparent, the field and the text of the node, the texts under its fields, and the line. Two
targets, even of two documents, that look alike in this sense get the same answers from it, and the
same rule of a table decides both. A predicate with queries sees of the query engine nothing but
what is captured under the names that it asks for.
-/
namespace TreeRules

/-- Two targets look alike to predicates without queries. -/
structure Target.Alike (doc other : Document) (target twin : Target) : Prop where
  node : twin.node.map Place.kind = target.node.map Place.kind
  parent : twin.parent.map Place.kind = target.parent.map Place.kind
  grandparent : twin.grandparent.map Place.kind = target.grandparent.map Place.kind
  field : twin.node.map Predicate.fieldValue = target.node.map Predicate.fieldValue
  text : twin.node.map other.textOf = target.node.map doc.textOf
  child (name : String) : (twin.node.bind (·.childAt? name)).map other.textOf =
    (target.node.bind (·.childAt? name)).map doc.textOf
  row : twin.row = target.row
  ink : twin.ink.isSome = target.ink.isSome
  line : ∀ pattern row ink inkTwin, target.row = some row → target.ink = some ink →
    twin.ink = some inkTwin →
    Predicate.lineHolds other pattern inkTwin row = Predicate.lineHolds doc pattern ink row

namespace Predicate

mutual

/-- Whether a predicate asks nothing of the query engine. -/
def queryFree : Predicate → Bool
  | .captured _ _ => false
  | .fieldIs _ inner => inner.queryFree
  | .all tests | .any tests => queryFreeAll tests
  | .not test => test.queryFree
  | .nodeIs _ | .parentIs _ | .chain .. | .textHas .. | .lineHas _ | .noNode | .always => true

def queryFreeAll : List Predicate → Bool
  | [] => true
  | test :: rest => test.queryFree && queryFreeAll rest

end

theorem kindIs_eq (pattern : Pattern) (place : Option Place) :
    kindIs pattern place = (place.map Place.kind).any pattern.accepts := by
  cases place <;> rfl

theorem linkHolds_congr {place twin : Option Place} (h : twin.map Place.kind = place.map Place.kind)
    (link : Link) : linkHolds link twin = linkHolds link place := by
  have hnone : twin.isNone = place.isNone := by
    rw [← Option.isNone_map (f := Place.kind), h, Option.isNone_map]
  cases link with
  | any => rfl
  | absent => exact hnone
  | kind pattern => rw [linkHolds, linkHolds, kindIs_eq, kindIs_eq, h]

variable {doc other : Document} {target twin : Target}

/-- The two nodes of targets that look alike, where one has a node. -/
theorem alike_cases (h : Target.Alike doc other target twin) :
    (target.node = none ∧ twin.node = none) ∨ ∃ place place', target.node = some place ∧
      twin.node = some place' ∧ fieldValue place' = fieldValue place ∧
      other.textOf place' = doc.textOf place ∧
      ∀ name, (place'.childAt? name).map other.textOf = (place.childAt? name).map doc.textOf := by
  cases htarget : target.node with
  | none =>
    have hnode := h.node
    rw [htarget, Option.map_none, Option.map_eq_none_iff] at hnode
    exact .inl ⟨rfl, hnode⟩
  | some place =>
    have hnode := h.node
    rw [htarget, Option.map_some] at hnode
    obtain ⟨place', htwin, -⟩ := Option.map_eq_some_iff.1 hnode
    have hfield := h.field
    have htext := h.text
    have hchild := h.child
    simp only [htarget, htwin, Option.map_some, Option.some.injEq, Option.bind_some]
      at hfield htext hchild
    exact .inr ⟨place, place', rfl, htwin, hfield, htext, hchild⟩

theorem textHolds_congr {place place' : Place} (htext : other.textOf place' = doc.textOf place)
    (hchild : ∀ name, (place'.childAt? name).map other.textOf =
      (place.childAt? name).map doc.textOf) (pattern : Pattern) (field : Value) :
    textHolds other pattern field place' = textHolds doc pattern field place := by
  cases field with
  | null => rw [textHolds, textHolds, htext]
  | text name =>
    have hany : ∀ (document : Document) (child : Option Place),
        (child.any fun child => pattern.foundIn (document.textOf child)) =
          (child.map document.textOf).any pattern.foundIn := by
      intro document child
      cases child <;> rfl
    rw [textHolds, textHolds, hany, hany, hchild]
  | _ => rfl

-- The recursion goes into the parts that the evaluation goes into; the memory is passed along
-- unread, since no query is met.
mutual

theorem evaluate_alike (h : Target.Alike doc other target twin) (test : Predicate)
    (hfree : test.queryFree) (memory : Memory) :
    evaluate other twin test memory = evaluate doc target test memory := by
  match test with
  | .nodeIs pattern => rw [evaluate, evaluate, kindIs_eq, kindIs_eq, h.node]
  | .parentIs pattern => rw [evaluate, evaluate, kindIs_eq, kindIs_eq, h.parent]
  | .chain node parent grandparent =>
    rw [evaluate, evaluate, linkHolds_congr h.node, linkHolds_congr h.parent,
      linkHolds_congr h.grandparent]
  | .noNode =>
    have hnone := linkHolds_congr h.node .absent
    rw [linkHolds, linkHolds] at hnone
    rw [evaluate, evaluate, hnone]
  | .always => rw [evaluate, evaluate]
  | .fieldIs field inner =>
    rw [evaluate, evaluate]
    obtain ⟨hnone, hnone'⟩ | ⟨place, place', hsome, hsome', hfield, -, -⟩ := alike_cases h
    · rw [hnone, hnone']
    · rw [hsome, hsome']
      dsimp only
      rw [hfield, evaluate_alike h inner (by simpa [queryFree] using hfree)]
  | .captured query capture => simp [queryFree] at hfree
  | .textHas pattern field =>
    rw [evaluate, evaluate]
    obtain ⟨hnone, hnone'⟩ | ⟨place, place', hsome, hsome', -, htext, hchild⟩ := alike_cases h
    · rw [hnone, hnone']
    · rw [hsome, hsome']
      dsimp only
      rw [textHolds_congr htext hchild]
  | .lineHas pattern =>
    rw [evaluate, evaluate, h.row]
    have hink := h.ink
    cases hrow : target.row with
    | none => cases twin.ink <;> cases target.ink <;> rfl
    | some row =>
      cases htarget : target.ink <;> cases htwin : twin.ink <;>
        simp only [htarget, htwin, Option.isSome_none, Option.isSome_some, Bool.false_eq_true,
          Bool.true_eq_false] at hink
      · rfl
      · dsimp only
        rw [h.line pattern row _ _ hrow htarget htwin]
  | .all tests =>
    rw [evaluate, evaluate]
    exact evaluateAll_alike h tests (by simpa [queryFree] using hfree) memory
  | .any tests =>
    rw [evaluate, evaluate]
    exact evaluateAny_alike h tests (by simpa [queryFree] using hfree) memory
  | .not test =>
    rw [evaluate, evaluate, evaluate_alike h test (by simpa [queryFree] using hfree)]

theorem evaluateAll_alike (h : Target.Alike doc other target twin) (tests : List Predicate)
    (hfree : queryFreeAll tests) (memory : Memory) :
    evaluateAll other twin tests memory = evaluateAll doc target tests memory := by
  match tests with
  | [] => rw [evaluateAll, evaluateAll]
  | test :: rest =>
    rw [queryFreeAll, Bool.and_eq_true] at hfree
    rw [evaluateAll, evaluateAll, evaluate_alike h test hfree.1]
    split
    · exact evaluateAll_alike h rest hfree.2 _
    · rfl

theorem evaluateAny_alike (h : Target.Alike doc other target twin) (tests : List Predicate)
    (hfree : queryFreeAll tests) (memory : Memory) :
    evaluateAny other twin tests memory = evaluateAny doc target tests memory := by
  match tests with
  | [] => rw [evaluateAny, evaluateAny]
  | test :: rest =>
    rw [queryFreeAll, Bool.and_eq_true] at hfree
    rw [evaluateAny, evaluateAny, evaluate_alike h test hfree.1]
    split
    · exact evaluateAny_alike h rest hfree.2 _
    · rfl

end

/-! ## Names that are asked for -/

mutual

/-- The queries of a predicate, each with the name whose captures it asks for. -/
def asked : Predicate → List (Value × Value)
  | .captured query capture => [(query, capture)]
  | .fieldIs _ inner => inner.asked
  | .all tests | .any tests => askedAll tests
  | .not test => test.asked
  | .nodeIs _ | .parentIs _ | .chain .. | .textHas .. | .lineHas _ | .noNode | .always => []

def askedAll : List Predicate → List (Value × Value)
  | [] => []
  | test :: rest => test.asked ++ askedAll rest

end

/-- Another query engine captures the same nodes under the names that are asked for. -/
def AnswersAs (doc : Document) (captures : String → Option (Int × Int) → List (String × List Place))
    (asked : List (Value × Value)) : Prop :=
  ∀ query name, (.text query, .text name) ∈ asked →
    (captures query none).lookup name = (doc.captures query none).lookup name

section Engines

variable {captures : String → Option (Int × Int) → List (String × List Place)}

theorem answersAs_append {front back : List (Value × Value)}
    (h : AnswersAs doc captures (front ++ back)) :
    AnswersAs doc captures front ∧ AnswersAs doc captures back := by
  constructor
  · intro query name hasked
    exact h query name (List.mem_append_left back hasked)
  · intro query name hasked
    exact h query name (List.mem_append_right front hasked)

theorem capturedNodes_answersAs {query capture : Value}
    (h : AnswersAs doc captures [(query, capture)]) {compiled : Query}
    (hquery : query = .text compiled.text) :
    capturedNodes { doc with captures } compiled capture = capturedNodes doc compiled capture := by
  cases capture with
  | text name =>
    rw [capturedNodes, capturedNodes, h compiled.text name (hquery ▸ List.mem_singleton_self _)]
  | _ => rfl

theorem capturedKeys_answersAs {query capture : Value}
    (h : AnswersAs doc captures [(query, capture)]) (memory : Memory) :
    capturedKeys { doc with captures } query capture memory =
      capturedKeys doc query capture memory := by
  unfold capturedKeys
  dsimp only
  cases hcompiled : doc.toolkit.compile (.text doc.language) query with
  | error error => rfl
  | ok compiled =>
    dsimp only
    rw [capturedNodes_answersAs h (Toolkit.compile_text hcompiled)]

mutual

theorem evaluate_answersAs (test : Predicate) (h : AnswersAs doc captures test.asked)
    (memory : Memory) :
    evaluate { doc with captures } target test memory = evaluate doc target test memory := by
  match test with
  | .nodeIs _ | .parentIs _ | .chain .. | .noNode | .always => rw [evaluate, evaluate]
  | .textHas _ _ | .lineHas _ =>
    rw [evaluate, evaluate]
    rfl
  | .fieldIs field inner =>
    rw [evaluate, evaluate, evaluate_answersAs inner (by rwa [asked] at h)]
  | .captured query capture =>
    rw [evaluate, evaluate, capturedKeys_answersAs (by rwa [asked] at h)]
  | .all tests =>
    rw [evaluate, evaluate]
    exact evaluateAll_answersAs tests (by rwa [asked] at h) memory
  | .any tests =>
    rw [evaluate, evaluate]
    exact evaluateAny_answersAs tests (by rwa [asked] at h) memory
  | .not test => rw [evaluate, evaluate, evaluate_answersAs test (by rwa [asked] at h)]

theorem evaluateAll_answersAs (tests : List Predicate)
    (h : AnswersAs doc captures (askedAll tests)) (memory : Memory) :
    evaluateAll { doc with captures } target tests memory =
      evaluateAll doc target tests memory := by
  match tests with
  | [] => rw [evaluateAll, evaluateAll]
  | test :: rest =>
    rw [askedAll] at h
    obtain ⟨htest, hrest⟩ := answersAs_append h
    rw [evaluateAll, evaluateAll, evaluate_answersAs test htest]
    split
    · exact evaluateAll_answersAs rest hrest _
    · rfl

theorem evaluateAny_answersAs (tests : List Predicate)
    (h : AnswersAs doc captures (askedAll tests)) (memory : Memory) :
    evaluateAny { doc with captures } target tests memory =
      evaluateAny doc target tests memory := by
  match tests with
  | [] => rw [evaluateAny, evaluateAny]
  | test :: rest =>
    rw [askedAll] at h
    obtain ⟨htest, hrest⟩ := answersAs_append h
    rw [evaluateAny, evaluateAny, evaluate_answersAs test htest]
    split
    · exact evaluateAny_answersAs rest hrest _
    · rfl

end

end Engines

end Predicate

/-- The same rule decides two targets that look alike. -/
theorem Rule.first_alike {α : Type} {doc other : Document} {target twin : Target}
    (h : Target.Alike doc other target twin) {rules : List (Rule α)}
    (hfree : ∀ rule ∈ rules, rule.predicate.queryFree) :
    first other twin rules = first doc target rules := by
  refine first_congr fun rule hrule => ?_
  rw [Predicate.holds, Predicate.holds, Predicate.evaluate_alike h _ (hfree rule hrule)]

end TreeRules
