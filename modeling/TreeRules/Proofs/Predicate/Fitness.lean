import Mathlib.Tactic.Common
import TreeRules.Proofs.Predicate.Acceptance
import TreeRules.Ruleset.Validity

/-! # Predicates that fit their grammar

A predicate makes demands on the grammar: that it knows a node type or a field, or that a query
compiles and captures under a name. They are made in the parts of the predicate, which are listed
from left to right with each part before the parts in it. The check accepts a predicate just if
every demand of every part is met, and it refuses it for the first one in this list that is not.
-/
namespace TreeRules

def Value.IsText (value : Value) : Prop := ∃ content, value = .text content

namespace Outcome

variable {ε α : Type} {step : α → Except ε Unit} {items : List α}

theorem forM_eq_ok_iff : forM items step = .ok () ↔ ∀ item ∈ items, step item = .ok () := by
  induction items with
  | nil => exact ⟨nofun, fun _ => rfl⟩
  | cons item rest ih =>
    rw [List.forM_cons, bind_eq_ok, List.forall_mem_cons, ← ih]
    exact ⟨fun ⟨(), hitem, hrest⟩ => ⟨hitem, hrest⟩, fun ⟨hitem, hrest⟩ => ⟨(), hitem, hrest⟩⟩

/-- A series of steps fails at the first step that fails. -/
theorem forM_eq_error_iff {error : ε} : forM items step = .error error ↔
    ∃ front item back, items = front ++ item :: back ∧
      (∀ earlier ∈ front, step earlier = .ok ()) ∧ step item = .error error := by
  induction items with
  | nil => exact ⟨nofun, fun ⟨front, _, _, hsplit, _⟩ => by cases front <;> cases hsplit⟩
  | cons item rest ih =>
    rw [List.forM_cons, bind_eq_error]
    constructor
    · rintro (hitem | ⟨_, hitem, hrest⟩)
      · exact ⟨[], item, rest, rfl, nofun, hitem⟩
      · obtain ⟨front, later, back, rfl, hfront, hlater⟩ := ih.mp hrest
        exact ⟨item :: front, later, back, rfl, List.forall_mem_cons.mpr ⟨hitem, hfront⟩, hlater⟩
    · rintro ⟨front, later, back, hsplit, hfront, hlater⟩
      rcases List.cons_eq_append_iff.mp hsplit with ⟨rfl, hhead⟩ | ⟨front, rfl, hrest⟩
      · obtain ⟨rfl, -⟩ := List.cons.inj hhead
        exact .inl hlater
      · obtain ⟨hitem, hfront⟩ := List.forall_mem_cons.mp hfront
        exact .inr ⟨(), hitem, ih.mpr ⟨front, later, back, hrest, hfront, hlater⟩⟩

end Outcome

/-- Something that a predicate takes from the grammar and its queries. -/
inductive Demand where
  /-- There are nodes of the type, if it is a plain name. -/
  | kind (pattern : Pattern)
  /-- There is a field of the name. -/
  | field (name : Value)
  /-- A query compiles and captures nodes under a name. -/
  | capture (query name : Value)

/-! ## The demands of a predicate -/

def Link.demands : Link → List Demand
  | .kind pattern => [.kind pattern]
  | _ => []

namespace Predicate

/-- What a predicate demands on its own, apart from the predicates in it. -/
def demands : Predicate → List Demand
  | .nodeIs pattern | .parentIs pattern => [.kind pattern]
  | .chain node parent grandparent => node.demands ++ (parent.demands ++ grandparent.demands)
  | .fieldIs field _ => [.field field]
  | .captured query capture => [.capture query capture]
  | .textHas _ .null => []
  | .textHas _ field => [.field field]
  | _ => []

mutual

/-- A predicate and all predicates in it, from left to right, each before those in it. -/
def parts : Predicate → List Predicate
  | .fieldIs field inner => .fieldIs field inner :: parts inner
  | .all tests => .all tests :: partsOfAll tests
  | .any tests => .any tests :: partsOfAll tests
  | .not test => .not test :: parts test
  | test => [test]

def partsOfAll : List Predicate → List Predicate
  | [] => []
  | test :: rest => parts test ++ partsOfAll rest

end

theorem self_mem_parts (test : Predicate) : test ∈ test.parts := by
  cases test <;> simp [parts]

end Predicate

namespace Demand

variable {toolkit : Toolkit} {grammar : Grammar} {language : String} {demand : Demand}

/-- A demand names a field and a query by texts. -/
def Worded : Demand → Prop
  | .kind _ => True
  | .field name => name.IsText
  | .capture query _ => query.IsText

/-- The grammar and its queries give what is demanded. -/
def Met (toolkit : Toolkit) (grammar : Grammar) (language : String) : Demand → Prop
  | .kind pattern => pattern.isLiteral = true → grammar.hasKind pattern.source = true
  | .field name => ∃ content, name = .text content ∧ grammar.hasField content = true
  | .capture query name => ∃ content loaded names capture, query = .text content ∧
      toolkit.grammar language = .ok loaded ∧ toolkit.captureNames language content = .ok names ∧
      name = .text capture ∧ capture ∈ names

/-- Why a demand is not met. -/
inductive Fault (toolkit : Toolkit) (grammar : Grammar) (language : String) :
    Demand → PredicateFault → Prop
  | kind {pattern : Pattern} (hliteral : pattern.isLiteral = true)
      (hkind : grammar.hasKind pattern.source = false) :
      Fault toolkit grammar language (.kind pattern) (.unknownKind pattern.source language)
  | field {name : String} (hfield : grammar.hasField name = false) :
      Fault toolkit grammar language (.field (.text name)) (.unknownField (.text name) language)
  | grammar {query reason : String} {name : Value}
      (hgrammar : toolkit.grammar language = .error reason) :
      Fault toolkit grammar language (.capture (.text query) name)
        (.unknownGrammar (.text language) reason)
  | query {query reason : String} {name : Value} {loaded : Grammar}
      (hgrammar : toolkit.grammar language = .ok loaded)
      (hquery : toolkit.captureNames language query = .error reason) :
      Fault toolkit grammar language (.capture (.text query) name) (.badQuery language reason query)
  | capture {query : String} {name : Value} {loaded : Grammar} {names : List String}
      (hgrammar : toolkit.grammar language = .ok loaded)
      (hquery : toolkit.captureNames language query = .ok names)
      (hname : ∀ capture ∈ names, name ≠ .text capture) :
      Fault toolkit grammar language (.capture (.text query) name)
        (.missingCapture name (.text query))

def check (toolkit : Toolkit) (grammar : Grammar) (language : Value) : Demand → Outcome Unit
  | .kind pattern => Validity.checkKind grammar language pattern
  | .field name => Validity.checkField grammar language name
  | .capture query name => Validity.checkQuery toolkit language query name

/-- A demand that is worded in texts is met or has a fault. -/
theorem met_or_fault (h : demand.Worded) : demand.Met toolkit grammar language ∨
    ∃ fault, demand.Fault toolkit grammar language fault := by
  cases demand with
  | kind pattern =>
    by_cases hliteral : pattern.isLiteral = true
    · cases hkind : grammar.hasKind pattern.source with
      | true => exact .inl fun _ => hkind
      | false => exact .inr ⟨_, .kind hliteral hkind⟩
    · exact .inl fun hplain => absurd hplain hliteral
  | field name =>
    obtain ⟨content, rfl⟩ := h
    cases hfield : grammar.hasField content with
    | true => exact .inl ⟨content, rfl, hfield⟩
    | false => exact .inr ⟨_, .field hfield⟩
  | capture query name =>
    obtain ⟨content, rfl⟩ := h
    cases hgrammar : toolkit.grammar language with
    | error reason => exact .inr ⟨_, .grammar hgrammar⟩
    | ok loaded =>
      cases hquery : toolkit.captureNames language content with
      | error reason => exact .inr ⟨_, .query hgrammar hquery⟩
      | ok names =>
        by_cases hname : ∃ capture ∈ names, name = .text capture
        · obtain ⟨capture, hcapture, rfl⟩ := hname
          exact .inl ⟨content, loaded, names, capture, rfl, hgrammar, hquery, rfl, hcapture⟩
        · refine .inr ⟨_, .capture hgrammar hquery ?_⟩
          intro capture hcapture heq
          exact hname ⟨capture, hcapture, heq⟩

theorem compile_text_eq (toolkit : Toolkit) (language query : String) :
    toolkit.compile (.text language) (.text query) =
      match toolkit.grammar language, toolkit.captureNames language query with
      | .error reason, _ => .error (.predicate (.unknownGrammar (.text language) reason))
      | .ok _, .error reason => .error (.predicate (.badQuery language reason query))
      | .ok _, .ok names => .ok ⟨query, names⟩ := by
  have hshown : (Value.text language).shown = language := rfl
  simp only [Toolkit.compile, Toolkit.load, hshown]
  cases toolkit.grammar language with
  | error reason => rfl
  | ok loaded => cases toolkit.captureNames language query <;> rfl

theorem Met.check_eq (h : demand.Met toolkit grammar language) :
    demand.check toolkit grammar (.text language) = .ok () := by
  cases demand with
  | kind pattern =>
    refine if_neg fun hunknown => ?_
    obtain ⟨hliteral, hkind⟩ := (Bool.and_eq_true _ _).mp hunknown
    rw [h hliteral] at hkind
    cases hkind
  | field name =>
    obtain ⟨content, rfl, hfield⟩ := h
    exact if_pos hfield
  | capture query name =>
    obtain ⟨content, loaded, names, capture, rfl, hgrammar, hquery, hname, hcapture⟩ := h
    rw [check, Validity.checkQuery, compile_text_eq, hgrammar, hquery]
    exact if_pos (Value.memberOf_texts_iff.mpr ⟨capture, hcapture, hname⟩)

theorem Fault.check_eq {fault : PredicateFault} (h : demand.Fault toolkit grammar language fault) :
    demand.check toolkit grammar (.text language) = .error (.predicate fault) := by
  cases h with
  | kind hliteral hkind =>
    rw [check, Validity.checkKind, hliteral, hkind]
    rfl
  | field hfield =>
    rw [check, Validity.checkField, hfield]
    rfl
  | grammar hgrammar =>
    rw [check, Validity.checkQuery, compile_text_eq, hgrammar]
    rfl
  | query hgrammar hquery =>
    rw [check, Validity.checkQuery, compile_text_eq, hgrammar, hquery]
    rfl
  | capture hgrammar hquery hname =>
    rw [check, Validity.checkQuery, compile_text_eq, hgrammar, hquery]
    refine if_neg fun hmember => ?_
    obtain ⟨capture, hcapture, heq⟩ := Value.memberOf_texts_iff.mp hmember
    exact hname capture hcapture heq

theorem check_eq_ok_iff (h : demand.Worded) :
    demand.check toolkit grammar (.text language) = .ok () ↔
      demand.Met toolkit grammar language := by
  refine ⟨fun hok => ?_, Met.check_eq⟩
  rcases met_or_fault h with hmet | ⟨fault, hfault⟩
  · exact hmet
  · rw [hfault.check_eq] at hok
    cases hok

theorem check_eq_error_iff (h : demand.Worded) {error : Error} :
    demand.check toolkit grammar (.text language) = .error error ↔
      ∃ fault, demand.Fault toolkit grammar language fault ∧ error = .predicate fault := by
  constructor
  · intro herror
    rcases met_or_fault h with hmet | ⟨fault, hfault⟩
    · rw [hmet.check_eq] at herror
      cases herror
    · rw [hfault.check_eq] at herror
      cases herror
      exact ⟨fault, hfault, rfl⟩
  · rintro ⟨fault, hfault, rfl⟩
    exact hfault.check_eq

end Demand

/-! ## The check of a predicate -/

namespace Predicate
open Validity

variable {toolkit : Toolkit} {grammar : Grammar} {language : Value}

theorem checkLink_eq (toolkit : Toolkit) (link : Link) :
    checkLink grammar language link =
      forM link.demands (Demand.check toolkit grammar language) := by
  cases link with
  | kind pattern => simp [checkLink, Link.demands, Demand.check]
  | _ => rfl

-- The recursion is that of the check; a list of tests is checked as the parts of its tests in a row.
mutual

/-- The check goes through the demands of the parts in the order of the parts. -/
theorem checkPredicate_eq (test : Predicate) :
    checkPredicate toolkit grammar language test =
      forM (test.parts.flatMap demands) (Demand.check toolkit grammar language) := by
  match test with
  | .nodeIs pattern => simp [checkPredicate, parts, demands, Demand.check]
  | .parentIs pattern => simp [checkPredicate, parts, demands, Demand.check]
  | .chain node parent grandparent =>
    simp [checkPredicate, parts, demands, checkLink_eq toolkit]
  | .noNode => rfl
  | .always => rfl
  | .fieldIs field inner =>
    simp [checkPredicate, parts, demands, Demand.check, checkPredicate_eq inner]
  | .captured query capture => simp [checkPredicate, parts, demands, Demand.check]
  | .textHas pattern field =>
    cases field with
    | null => rfl
    | _ => simp [checkPredicate, parts, demands, Demand.check]
  | .lineHas pattern => rfl
  | .all tests => simp [checkPredicate, parts, demands, checkPredicates_eq tests]
  | .any tests => simp [checkPredicate, parts, demands, checkPredicates_eq tests]
  | .not test => simp [checkPredicate, parts, demands, checkPredicate_eq test]

theorem checkPredicates_eq (tests : List Predicate) :
    checkPredicates toolkit grammar language tests =
      forM ((partsOfAll tests).flatMap demands) (Demand.check toolkit grammar language) := by
  match tests with
  | [] => rfl
  | test :: rest =>
    rw [checkPredicates, partsOfAll, List.flatMap_append, List.forM_append, checkPredicate_eq test,
      checkPredicates_eq rest]

end

/-- The demands of a predicate name fields and queries by texts. -/
def Worded (test : Predicate) : Prop :=
  ∀ part ∈ test.parts, ∀ demand ∈ part.demands, demand.Worded

/-- A predicate is accepted just if every demand of every part of it is met. Else it is refused with
the fault of the first demand, in the order of the parts, that is not. -/
theorem checkPredicate_first_unmet (toolkit : Toolkit) (grammar : Grammar) (language : String)
    {test : Predicate} (h : test.Worded) :
    (checkPredicate toolkit grammar (.text language) test = .ok () ↔
        ∀ part ∈ test.parts, ∀ demand ∈ part.demands, demand.Met toolkit grammar language) ∧
      ∀ error, checkPredicate toolkit grammar (.text language) test = .error error ↔
        ∃ front demand back fault, test.parts.flatMap demands = front ++ demand :: back ∧
          (∀ earlier ∈ front, earlier.Met toolkit grammar language) ∧
          demand.Fault toolkit grammar language fault ∧ error = .predicate fault := by
  have hworded : ∀ demand ∈ test.parts.flatMap demands, demand.Worded := by
    intro demand hdemand
    obtain ⟨part, hpart, hmem⟩ := List.mem_flatMap.mp hdemand
    exact h part hpart demand hmem
  rw [checkPredicate_eq]
  constructor
  · rw [Outcome.forM_eq_ok_iff]
    constructor
    · intro hall part hpart demand hdemand
      have hmem := List.mem_flatMap.mpr ⟨part, hpart, hdemand⟩
      exact (Demand.check_eq_ok_iff (hworded demand hmem)).mp (hall demand hmem)
    · intro hall demand hmem
      obtain ⟨part, hpart, hdemand⟩ := List.mem_flatMap.mp hmem
      exact (hall part hpart demand hdemand).check_eq
  · intro error
    rw [Outcome.forM_eq_error_iff]
    constructor
    · rintro ⟨front, demand, back, hsplit, hfront, herror⟩
      rw [hsplit] at hworded
      obtain ⟨hwordedFront, hwordedRest⟩ := List.forall_mem_append.mp hworded
      obtain ⟨fault, hfault, rfl⟩ := (Demand.check_eq_error_iff
        (hwordedRest demand List.mem_cons_self)).mp herror
      refine ⟨front, demand, back, fault, hsplit, ?_, hfault, rfl⟩
      intro earlier hearlier
      exact (Demand.check_eq_ok_iff (hwordedFront earlier hearlier)).mp (hfront earlier hearlier)
    · rintro ⟨front, demand, back, fault, hsplit, hfront, hfault, rfl⟩
      refine ⟨front, demand, back, hsplit, ?_, hfault.check_eq⟩
      intro earlier hearlier
      exact (hfront earlier hearlier).check_eq

/-! ### A predicate with two faults -/

def letter : Pattern := ⟨"x", .seq (.char {} 'x') .empty, rfl⟩

def maybeLetter : Pattern := ⟨"x?", .seq (.loop .greedy 0 (some 1) (.char {} 'x')) .empty, rfl⟩

/-- A grammar without nodes that has one field. -/
def bodyGrammar : Grammar := ⟨fun _ => false, (· == "body")⟩

/-- Every query captures under one name. -/
def nameToolkit : Toolkit := ⟨fun _ => .ok bodyGrammar, fun _ _ => .ok ["name"]⟩

/-- The pattern of the chain is no plain name, the capture is not there, and neither is the type of
the parent. -/
def misfit : Predicate :=
  .all [.not (.fieldIs (.text "body") (.chain (.kind maybeLetter) .any .absent)),
    .textHas letter .null, .any [.captured (.text "(x)") (.text "part"), .parentIs letter]]

theorem checkPredicate_first_unmet_misfit : misfit.Worded ∧
    checkPredicate nameToolkit bodyGrammar (.text "plain") misfit =
      .error (.predicate (.missingCapture (.text "part") (.text "(x)"))) := by
  have hdemands : misfit.parts.flatMap demands =
      [.field (.text "body"), .kind maybeLetter] ++ .capture (.text "(x)") (.text "part") ::
        [.kind letter] := rfl
  have hworded : misfit.Worded := by
    intro part hpart demand hdemand
    have hmem := List.mem_flatMap.mpr ⟨part, hpart, hdemand⟩
    simp only [hdemands, List.cons_append, List.nil_append, List.mem_cons, List.not_mem_nil,
      or_false] at hmem
    rcases hmem with rfl | rfl | rfl | rfl
    · exact ⟨_, rfl⟩
    · trivial
    · exact ⟨_, rfl⟩
    · trivial
  have hrefused := (checkPredicate_first_unmet nameToolkit bodyGrammar "plain" hworded).2
  refine ⟨hworded, (hrefused _).mpr ⟨_, _, _, _, hdemands, ?_, .capture rfl rfl ?_, rfl⟩⟩
  · have hpattern : maybeLetter.isLiteral = false := rfl
    simp [Demand.Met, bodyGrammar, hpattern]
  · simp

end Predicate

end TreeRules
