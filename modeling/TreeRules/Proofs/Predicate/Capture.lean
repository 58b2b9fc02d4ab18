import Mathlib
import TreeRules.Proofs.Predicate.Acceptance

/-! # Captured nodes by their keys

A query predicate does not ask whether its node was captured, but whether a node with the same
start, end and type was. The memory of a series of evaluations changes nothing in this: whatever was
evaluated before, every entry of the memory is what the query engine would answer now.
-/
namespace TreeRules

/-- Every entry of a memory is what the query engine answers in a document. -/
def Memory.Faithful (doc : Document) (memory : Memory) : Prop :=
  ∀ entry ∈ memory, ∃ compiled,
    doc.toolkit.compile (.text doc.language) entry.query = .ok compiled ∧
      entry.keys = (Predicate.capturedNodes doc compiled entry.capture).map Place.key

namespace Predicate

variable {doc : Document} {memory : Memory}

/-- Equal capture names stand for the same nodes; only texts name any. -/
theorem capturedNodes_congr {capture other : Value} (h : capture.equal other = true)
    (compiled : Query) : capturedNodes doc compiled capture = capturedNodes doc compiled other := by
  cases capture with
  | text name => rw [Value.equal_text_left.1 h]
  | _ =>
    cases other with
    | text name => cases Value.equal_text_right.1 h
    | _ => rfl

/-- What is known of a query is what the query engine answers to it. -/
theorem known?_faithful (h : memory.Faithful doc) {query capture : Value} {keys : List NodeKey}
    (hknown : memory.known? query capture = some keys) :
    ∃ compiled, doc.toolkit.compile (.text doc.language) query = .ok compiled ∧
      keys = (capturedNodes doc compiled capture).map Place.key := by
  obtain ⟨entry, hfind, rfl⟩ := Option.map_eq_some_iff.1 hknown
  have hequal := List.find?_some hfind
  rw [Bool.and_eq_true] at hequal
  obtain ⟨compiled, hcompiled, hkeys⟩ := h entry (List.mem_of_find?_eq_some hfind)
  -- The entry was compiled, so its query is a text, and equal texts are the same.
  have hquery : query = entry.query := by
    have htext := Toolkit.compile_text hcompiled
    rw [htext] at hequal ⊢
    exact Value.equal_text_left.1 hequal.1
  refine ⟨compiled, hquery ▸ hcompiled, ?_⟩
  rw [hkeys, capturedNodes_congr hequal.2]

theorem capturedKeys_faithful (h : memory.Faithful doc) (query capture : Value) :
    (capturedKeys doc query capture memory).2.Faithful doc := by
  unfold capturedKeys
  split
  · exact h
  · split
    · exact h
    · split
      · exact h
      next compiled hcompiled => exact List.forall_mem_cons.2 ⟨⟨compiled, hcompiled, rfl⟩, h⟩

/-! ## Memories along a series -/

-- Only a query writes to the memory; everything else hands on what its parts have left.
mutual

theorem evaluate_faithful (target : Target) (test : Predicate) {memory : Memory}
    (h : memory.Faithful doc) :
    (evaluate doc target test memory).2.Faithful doc := by
  match test with
  | .nodeIs _ | .parentIs _ | .chain .. | .noNode | .always =>
    rw [evaluate]
    exact h
  | .fieldIs field inner =>
    rw [evaluate]
    split
    · split
      · exact evaluate_faithful target inner h
      · exact h
    · exact h
  | .captured query capture =>
    have hkeys := capturedKeys_faithful h query capture
    rw [evaluate]
    split
    · split
      next heq =>
        rw [heq] at hkeys
        exact hkeys
      next heq =>
        rw [heq] at hkeys
        exact hkeys
    · exact h
  | .textHas _ _ =>
    rw [evaluate]
    split <;> exact h
  | .lineHas _ =>
    rw [evaluate]
    split <;> exact h
  | .all tests =>
    rw [evaluate]
    exact evaluateAll_faithful target tests h
  | .any tests =>
    rw [evaluate]
    exact evaluateAny_faithful target tests h
  | .not test =>
    have htest := evaluate_faithful target test h
    rw [evaluate]
    split
    next heq =>
      rw [heq] at htest
      exact htest
    next heq =>
      rw [heq] at htest
      exact htest

theorem evaluateAll_faithful (target : Target) (tests : List Predicate) {memory : Memory}
    (h : memory.Faithful doc) :
    (evaluateAll doc target tests memory).2.Faithful doc := by
  match tests with
  | [] =>
    rw [evaluateAll]
    exact h
  | test :: rest =>
    have htest := evaluate_faithful target test h
    rw [evaluateAll]
    split
    next heq => exact evaluateAll_faithful target rest (by rwa [heq] at htest)
    next => exact htest

theorem evaluateAny_faithful (target : Target) (tests : List Predicate) {memory : Memory}
    (h : memory.Faithful doc) :
    (evaluateAny doc target tests memory).2.Faithful doc := by
  match tests with
  | [] =>
    rw [evaluateAny]
    exact h
  | test :: rest =>
    have htest := evaluate_faithful target test h
    rw [evaluateAny]
    split
    next heq => exact evaluateAny_faithful target rest (by rwa [heq] at htest)
    next => exact htest

end

theorem evaluateSeries_faithful (series : List (Predicate × Target)) {memory : Memory}
    (h : memory.Faithful doc) : (evaluateSeries doc series memory).2.Faithful doc := by
  induction series generalizing memory with
  | nil => exact h
  | cons step rest ih => exact ih (evaluate_faithful step.2 step.1 h)

/-! ## The answer -/

theorem capturedKeys_of_faithful (h : memory.Faithful doc) {query : String} {compiled : Query}
    (hcompiled : doc.toolkit.compile (.text doc.language) (.text query) = .ok compiled)
    (name : String) : (capturedKeys doc (.text query) (.text name) memory).1 =
      .ok ((capturedNodes doc compiled (.text name)).map Place.key) := by
  unfold capturedKeys
  simp only [Value.isKey, Bool.not_true, Bool.or_self, Bool.false_eq_true, if_false, hcompiled]
  cases hknown : memory.known? (.text query) (.text name) with
  | none => rfl
  | some keys =>
    obtain ⟨known, hsame, hkeys⟩ := known?_faithful h hknown
    rw [hcompiled] at hsame
    cases hsame
    exact congrArg Except.ok hkeys

/-- A query predicate holds of a node if a node with the same start, end and type is captured,
whatever was evaluated before. This is the same as being captured for just those nodes that are
captured or differ in their key from all that are. -/
theorem captured_iff_key {doc : Document} {query : String} {compiled : Query}
    (hcompiled : doc.toolkit.compile (.text doc.language) (.text query) = .ok compiled)
    (name : String) (before : List (Predicate × Target)) (place : Place) :
    let nodes := capturedNodes doc compiled (.text name)
    ∃ answer, (evaluate doc (Target.ofNode doc place) (.captured (.text query) (.text name))
        (evaluateSeries doc before []).2).1 = .ok answer ∧
      (answer = true ↔ ∃ node ∈ nodes, node.key = place.key) ∧
      ((answer = true ↔ place ∈ nodes) ↔
        place ∈ nodes ∨ ∀ node ∈ nodes, node.key ≠ place.key) := by
  intro nodes
  have hempty : Memory.Faithful doc [] := nofun
  have hkeys := capturedKeys_of_faithful (evaluateSeries_faithful before hempty) hcompiled name
  have hanswer : (nodes.map Place.key).contains place.key = true ↔
      ∃ node ∈ nodes, node.key = place.key := by
    rw [List.contains_iff_mem, List.mem_map]
  refine ⟨(nodes.map Place.key).contains place.key, ?_, hanswer, ?_⟩
  · rw [evaluate, Target.ofNode]
    dsimp only
    split
    next heq =>
      rw [heq] at hkeys
      cases hkeys
      rfl
    next heq =>
      rw [heq] at hkeys
      cases hkeys
  · rw [hanswer]
    constructor
    · intro hsame
      by_cases hplace : place ∈ nodes
      · exact .inl hplace
      · exact .inr fun node hnode hkey => hplace (hsame.1 ⟨node, hnode, hkey⟩)
    · rintro (hplace | hnone)
      · exact ⟨fun _ => hplace, fun _ => ⟨place, hplace, rfl⟩⟩
      · exact ⟨fun ⟨node, hnode, hkey⟩ => absurd hkey (hnone node hnode),
          fun hplace => absurd rfl (hnone place hplace)⟩

/-! ## A truth value -/

def truthTree : Tree :=
  .node ⟨0, "boolean_literal", 0, 4, true, none, false⟩
    [.node ⟨1, "true", 0, 4, true, none, false⟩ [.node ⟨2, "true", 0, 4, false, none, false⟩ []]]

def truthNamed : Place := (⟨truthTree, []⟩ : Place).children.getD 0 ⟨truthTree, []⟩

def truthWord : Place := truthNamed.children.getD 0 truthNamed

/-- The source `true`, in which the node for the value and the node for the word have one key. The
query captures the node for the value. -/
def truthDocument : Document where
  language := "truths"
  source := Source.ofBytes [116, 114, 117, 101]
  tree := truthTree
  captures _ _ := [("value", [truthNamed])]
  toolkit := ⟨fun _ => .ok ⟨fun _ => true, fun _ => true⟩, fun _ _ => .ok ["value"]⟩

theorem captured_iff_key_truth :
    truthDocument.toolkit.compile (.text "truths") (.text "(true) @value") =
        .ok ⟨"(true) @value", ["value"]⟩ ∧
      ∃ answer, holds truthDocument (Target.ofNode truthDocument truthNamed)
        (.captured (.text "(true) @value") (.text "value")) = .ok answer ∧ answer = true := by
  have hcompiled : truthDocument.toolkit.compile (.text "truths") (.text "(true) @value") =
      .ok ⟨"(true) @value", ["value"]⟩ := rfl
  obtain ⟨answer, hanswer, hkey, -⟩ := captured_iff_key hcompiled "value" [] truthNamed
  exact ⟨hcompiled, answer, hanswer, hkey.2 ⟨truthNamed, List.mem_cons_self, rfl⟩⟩

/-- The predicate holds of the word, which is not captured. -/
theorem captured_twin :
    truthWord ∈ truthDocument.tree.places ∧
      holds truthDocument (Target.ofNode truthDocument truthWord)
        (.captured (.text "(true) @value") (.text "value")) = .ok true ∧
      truthWord ∉ capturedNodes truthDocument ⟨"(true) @value", ["value"]⟩ (.text "value") := by
  refine ⟨?_, by cbv, ?_⟩
  · exact List.mem_cons_of_mem _ (List.mem_cons_of_mem _ List.mem_cons_self)
  · intro hmem
    have hsame : truthWord = truthNamed := List.mem_singleton.1 hmem
    exact absurd (congrArg Place.id hsame) (by decide)

end Predicate

end TreeRules
