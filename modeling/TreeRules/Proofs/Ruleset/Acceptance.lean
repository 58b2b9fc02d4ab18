import Mathlib
import TreeRules.Proofs.FirstMatch
import TreeRules.Proofs.Predicate.Acceptance
import TreeRules.Proofs.Ruleset.Inheritance
import TreeRules.Session

/-! # Accepted rules

Rules that were checked when a session was opened do not fail later on: no request for a document
of their language meets a predicate or a query that is at fault, and a table that was asked to be
total has a rule for every line.
-/
namespace TreeRules

/-! ## Outcomes without faults of predicates -/

/-- An outcome that is no fault of a predicate. -/
def Faultless {α : Type} (outcome : Outcome α) : Prop :=
  ∀ fault, outcome ≠ .error (.predicate fault)

namespace Faultless

variable {α β : Type} {outcome : Outcome α}

theorem ok (a : α) : Faultless (.ok a : Outcome α) := nofun

theorem of_ok {a : α} (h : outcome = .ok a) : Faultless outcome := by
  rw [h]
  exact ok a

/-- An error that is passed on is no fault either. -/
theorem passed_on {error : Error} (h : Faultless outcome) (herror : outcome = .error error) :
    Faultless (.error error : Outcome β) := by
  intro fault hfault
  cases hfault
  exact h fault herror

theorem bind {next : α → Outcome β} (h : Faultless outcome)
    (hnext : ∀ a, outcome = .ok a → Faultless (next a)) : Faultless (outcome >>= next) := by
  intro fault hfault
  rcases Outcome.bind_eq_error.1 hfault with herror | ⟨a, ha, herror⟩
  · exact h fault herror
  · exact hnext a ha fault herror

theorem map {f : α → β} (h : Faultless outcome) : Faultless (outcome.map f) := by
  intro fault hfault
  exact h fault (Outcome.map_eq_error.1 hfault)

theorem toOutcome (part : Checked α) : Faultless part.toOutcome := by
  cases part with
  | ok a => exact ok a
  | error faults => exact nofun

end Faultless

/-! ## What a check makes sure of -/

/-- No predicate of some rules fails on a target of a document. -/
def Rule.Answered {α : Type} (doc : Document) (rules : List (Rule α)) : Prop :=
  ∀ target : Target, target.Placed → Decided doc target rules

/-- Rules that always have an answer in a document. -/
structure LanguageRules.Answered (doc : Document) (rules : LanguageRules) : Prop where
  queries : ∀ rule ∈ rules.highlight.rules,
    ∃ query, doc.toolkit.compile (.text doc.language) rule.query = .ok query
  refinements : ∀ rule ∈ rules.highlight.rules, Rule.Answered doc rule.refine.rules
  indent : Rule.Answered doc rules.indent.rules
  things : Rule.Answered doc rules.things.rules
  firstMatch : rules.things.accumulating = false

namespace Validity

variable {doc : Document} {grammar : Grammar}

theorem checkRules_answered {α : Type} {rules : List (Rule α)}
    (h : checkRules doc.toolkit grammar (.text doc.language) rules = .ok ()) :
    Rule.Answered doc rules := by
  intro target hplaced
  induction rules with
  | nil => exact nofun
  | cons rule rest ih =>
    rw [checkRules] at h
    split at h
    next hrule => exact Rule.decided_cons.2 ⟨Predicate.holds_accepted hplaced hrule, ih h⟩
    next => cases h
    next => cases h

theorem checkHighlights_eq_ok {toolkit : Toolkit} {language : Value} {features : List Value}
    {rules : List HighlightRule}
    (h : checkHighlights toolkit grammar language features rules = .ok ()) :
    ∀ rule ∈ rules, (∃ query, toolkit.compile language rule.query = .ok query) ∧
      checkRules toolkit grammar language rule.refine.rules = .ok () := by
  induction rules with
  | nil => exact nofun
  | cons rule rest ih =>
    rw [checkHighlights] at h
    split at h
    next => exact absurd h Outcome.throw_ne_ok
    next =>
      obtain ⟨query, hquery, h⟩ := Outcome.bind_eq_ok.1 h
      obtain ⟨_, hrefine, hrest⟩ := Outcome.bind_eq_ok.1 h
      exact List.forall_mem_cons.2 ⟨⟨⟨query, hquery⟩, hrefine⟩, ih hrest⟩

theorem check_eq_ok {toolkit : Toolkit} {strict : Bool} {rules : LanguageRules}
    (h : check toolkit strict rules = .ok ()) : ∃ grammar,
      checkHighlights toolkit grammar rules.language rules.highlight.features
        rules.highlight.rules = .ok () ∧
      checkRules toolkit grammar rules.language rules.indent.rules = .ok () ∧
      checkTotal strict rules.indent = .ok () ∧ checkFirstMatch rules.things = .ok () ∧
      checkRules toolkit grammar rules.language rules.things.rules = .ok () := by
  simp only [check, Outcome.bind_eq_ok] at h
  obtain ⟨grammar, -, _, hhighlight, _, -, _, hindent, _, -, _, htotal, _, hfirst, hthings⟩ := h
  exact ⟨grammar, hhighlight, hindent, htotal, hfirst, hthings⟩

theorem check_answered {strict : Bool} {rules : LanguageRules}
    (hlanguage : rules.language = .text doc.language) (h : check doc.toolkit strict rules = .ok ()) :
    rules.Answered doc := by
  obtain ⟨grammar, hhighlight, hindent, -, hfirst, hthings⟩ := check_eq_ok h
  rw [hlanguage] at hhighlight hindent hthings
  have hrules := checkHighlights_eq_ok hhighlight
  refine ⟨fun rule hrule => (hrules rule hrule).1,
    fun rule hrule => checkRules_answered (hrules rule hrule).2,
    checkRules_answered hindent, checkRules_answered hthings, ?_⟩
  unfold checkFirstMatch at hfirst
  split at hfirst
  next => cases hfirst
  next hfalse => simpa using hfalse

end Validity

/-! ## Requests -/

variable {doc : Document}

theorem Document.checkFresh_faultless : Faultless doc.checkFresh := by
  unfold checkFresh
  split
  · exact nofun
  · split
    · exact nofun
    · exact .ok ()

theorem Document.checkNode_faultless (place : Place) : Faultless (doc.checkNode place) := by
  unfold checkNode
  split
  · exact nofun
  · split
    · exact nofun
    · exact .ok ()

theorem Target.ofRow_faultless (row : Int) : Faultless (ofRow doc row) := by
  refine .map ?_
  unfold Source.checkRow
  split
  · exact .ok ()
  · exact nofun

theorem Target.placed_of_ofRow {row : Int} {target : Target} (h : ofRow doc row = .ok target) :
    target.Placed := by
  obtain ⟨_, -, rfl⟩ := Outcome.map_eq_ok.1 h
  exact placed_ofRowAt doc row.toNat

theorem Thing.classify_faultless {things : Table Category} (hthings : Rule.Answered doc things.rules)
    (hfirst : things.accumulating = false) (place : Place) :
    Faultless (classify doc things place) := by
  refine .bind (doc.checkNode_faultless place) fun _ _ => ?_
  obtain ⟨answer, hanswer⟩ := Rule.first_succeeds (hthings _ (Target.placed_ofNode doc place))
  simp only [Table.resolve, hfirst, Bool.false_eq_true, if_false]
  exact .map (.of_ok hanswer)

theorem Column.ofAnchor_faultless (target : Target) (unit : Int) (action : IndentAction) :
    Faultless (ofAnchor doc target unit action) := by
  unfold ofAnchor
  split
  case h_10 =>
    refine .map ?_
    unfold MemberChain.kindsOf
    split
    · exact .ok _
    · exact nofun
  all_goals exact .ok _

theorem Indentation.ofRow_faultless {table : Table IndentAction}
    (htable : Rule.Answered doc table.rules) (unit row : Int) :
    Faultless (ofRow doc table unit row) := by
  refine .bind doc.checkFresh_faultless fun _ _ => ?_
  refine .bind (Target.ofRow_faultless row) fun target htarget => ?_
  obtain ⟨answer, hanswer⟩ := Rule.first_succeeds (htable target (Target.placed_of_ofRow htarget))
  refine .bind (.of_ok hanswer) fun rule _ => ?_
  cases rule with
  | none => exact .ok _
  | some rule =>
    exact .bind (Column.ofAnchor_faultless target unit rule.action) fun _ _ => .toOutcome _

namespace Overlay

/-- Only the fields of a span are refused. -/
theorem fill_eq_error {tag feature : Value} {stretches : List (Int × Int)} {overlay : Overlay}
    {error : Error} (h : (fill tag feature stretches overlay).2 = .error error) :
    ∃ faults, error = .fields faults := by
  induction stretches generalizing overlay with
  | nil => cases h
  | cons stretch rest ih =>
    rw [fill] at h
    cases hmake : Span.make stretch.1 stretch.2 tag feature with
    | ok span =>
      rw [hmake] at h
      exact ih h
    | error cause =>
      rw [hmake] at h
      cases h
      unfold Span.make Span.ofValues Checked.toOutcome at hmake
      split at hmake
      next => cases hmake
      next faults _ =>
        cases hmake
        exact ⟨faults, rfl⟩

theorem add_eq_error {overlay : Overlay} {layer : Layer} {error : Error}
    (h : (overlay.add layer).2 = .error error) : ∃ faults, error = .fields faults := by
  unfold add at h
  dsimp only at h
  split at h
  · cases h
  · split at h <;> exact fill_eq_error h

/-- Layers that are no faults make no fault when they are laid down. -/
theorem addAll_faultless {overlay : Overlay} {layers : List (Outcome Layer)}
    (h : ∀ layer ∈ layers, Faultless layer) : Faultless (overlay.addAll layers) := by
  induction layers generalizing overlay with
  | nil => exact .ok overlay
  | cons first rest ih =>
    obtain ⟨hfirst, hrest⟩ := List.forall_mem_cons.1 h
    cases first with
    | error error => exact hfirst.passed_on rfl
    | ok layer =>
      rw [addAll]
      split
      next => exact ih hrest
      next hadd =>
        obtain ⟨faults, rfl⟩ := add_eq_error (congrArg Prod.snd hadd)
        exact nofun

end Overlay

namespace Highlight

variable {range : Option (Int × Int)}

theorem capturesOf_faultless {rule : HighlightRule} {query : Query}
    (h : doc.toolkit.compile (.text doc.language) rule.query = .ok query) :
    Faultless (capturesOf doc range rule) := by
  refine .bind (.of_ok h) fun _ _ => .bind ?_ fun _ _ => .ok _
  unfold checkRange
  split
  · exact .ok ()
  · split
    · exact nofun
    · exact .ok ()

theorem tagsOf_succeeds {rule : HighlightRule} (h : Rule.Answered doc rule.refine.rules)
    (capture : Capture) : ∃ tags, tagsOf doc rule capture = .ok tags := by
  have hdecided := h _ (Target.placed_ofNode doc capture.place)
  unfold tagsOf Table.resolveAll Table.ruleFor
  split
  · exact ⟨_, rfl⟩
  · split
    · rw [Rule.matching_eq_filter hdecided]
      exact ⟨_, rfl⟩
    · obtain ⟨answer, hanswer⟩ := Rule.first_succeeds hdecided
      rw [hanswer]
      exact ⟨_, rfl⟩

theorem tagsOf_faultless {rule : HighlightRule} (h : Rule.Answered doc rule.refine.rules)
    (capture : Capture) : Faultless (tagsOf doc rule capture) := by
  obtain ⟨tags, htags⟩ := tagsOf_succeeds h capture
  exact .of_ok htags

theorem layersOfCapture_faultless {rule : HighlightRule} (feature : Value)
    (h : Rule.Answered doc rule.refine.rules) (capture : Capture) :
    ∀ layer ∈ layersOfCapture doc range feature rule capture, Faultless layer := by
  unfold layersOfCapture
  intro layer hlayer
  split at hlayer
  next herror =>
    rw [List.mem_singleton.1 hlayer]
    exact (tagsOf_faultless h capture).passed_on herror
  next =>
    obtain ⟨tag, -, rfl⟩ := List.mem_map.1 hlayer
    exact .ok _

theorem layersOfRule_faultless {rule : HighlightRule} {query : Query} (feature : Value)
    (hquery : doc.toolkit.compile (.text doc.language) rule.query = .ok query)
    (hrefine : Rule.Answered doc rule.refine.rules) :
    ∀ layer ∈ layersOfRule doc range feature rule, Faultless layer := by
  unfold layersOfRule
  intro layer hlayer
  split at hlayer
  next herror =>
    rw [List.mem_singleton.1 hlayer]
    exact (capturesOf_faultless hquery).passed_on herror
  next =>
    obtain ⟨capture, -, hlayer⟩ := List.mem_flatMap.1 hlayer
    exact layersOfCapture_faultless feature hrefine capture layer hlayer

theorem layers_faultless {rules : LanguageRules} (h : rules.Answered doc) (enabled : List Value) :
    ∀ layer ∈ layers doc rules.highlight enabled range, Faultless layer := by
  intro layer hlayer
  obtain ⟨feature, -, hlayer⟩ := List.mem_flatMap.1 hlayer
  unfold layersOfFeature at hlayer
  split at hlayer
  · rw [List.mem_singleton.1 hlayer]
    exact nofun
  · split at hlayer
    · obtain ⟨rule, hrule, hlayer⟩ := List.mem_flatMap.1 hlayer
      have hmem : rule ∈ rules.highlight.rules := (List.mem_filter.1 hrule).1
      obtain ⟨query, hquery⟩ := h.queries rule hmem
      exact layersOfRule_faultless feature hquery (h.refinements rule hmem) layer hlayer
    · cases hlayer

theorem project_faultless {rules : LanguageRules} (h : rules.Answered doc) (enabled : List Value) :
    Faultless (project doc rules.highlight enabled range) := by
  unfold project
  dsimp only
  refine .bind doc.checkFresh_faultless fun _ _ => ?_
  split
  · exact nofun
  · refine .bind (Overlay.addAll_faultless (layers_faultless h enabled)) fun _ _ => ?_
    split
    · exact nofun
    · exact .ok _

end Highlight

/-! ## Sessions -/

theorem Ruleset.languageOf?_cons {language : String} (h : language ≠ "")
    {entries : List (String × Value)} :
    languageOf? (.mapping (("language", .text language) :: entries)) = some (.text language) := by
  simp [languageOf?, Value.getD, Value.under?, Value.truthy, h]

theorem Ruleset.language_of_document {name language : String} {levels : List (List String)}
    {highlight indent things : List Value} {names : List (String × Value)} {rules : LanguageRules}
    (hlanguage : language ≠ "")
    (h : LanguageRules.ofDocument
      (Entry.document name language levels highlight indent things names) name = .ok rules) :
    rules.language = .text language := by
  obtain ⟨rulesets, chain, hrulesets, hchain, -, hstacked⟩ := ofDocument_eq_ok_iff.1 h
  obtain ⟨owns, howns⟩ := hstacked.inherits
  cases hrulesets
  cases hchain with
  | step hname hrest =>
    simp only [Value.under?, List.lookup_cons_self, Option.some.injEq, Value.mapping.injEq] at hname
    subst hname
    cases hrest
    have hfound := howns.language
    rw [List.findSome?_cons, languageOf?_cons hlanguage] at hfound
    exact (Option.some.inj hfound).symm

theorem Builtin.language_of_rules {entry : Language} (hentry : entry ∈ languages)
    {rules : LanguageRules} (h : entry.rules = .ok rules) : rules.language = .text entry.name := by
  simp only [languages, List.mem_cons, List.not_mem_nil, or_false] at hentry
  rcases hentry with rfl | rfl
  · obtain ⟨read, hread, hrules⟩ := Outcome.bind_eq_ok.1 h
    cases hrules
    have hlanguage := Ruleset.language_of_document (by decide) hread
    exact hlanguage
  · exact Ruleset.language_of_document (by decide) h

theorem Builtin.language_of_find {language : String} {rules : LanguageRules}
    (h : rulesFor language = .ok rules) : rules.language = .text language := by
  unfold rulesFor at h
  split at h
  next entry hentry =>
    have hname := List.find?_some hentry
    rw [← beq_iff_eq.1 hname]
    exact language_of_rules (List.mem_of_find?_eq_some hentry) h
  next => cases h

namespace Session

variable {workspace : Workspace} {settings : RulesSettings} {language : String}
  {rules : LanguageRules}

/-- The rules for a language are for that language, wherever they come from. -/
theorem language_of_rulesFor (h : rulesFor workspace settings language = .ok rules) :
    rules.language = .text language := by
  unfold rulesFor at h
  split at h
  · exact Builtin.language_of_find h
  · exact Builtin.language_of_find h
  · obtain ⟨read, -, h⟩ := Outcome.bind_eq_ok.1 h
    split at h
    next hequal =>
      cases h
      exact Value.equal_text_right.1 hequal
    next => exact absurd h Outcome.throw_ne_ok

/-- Rules that were built for a language have an answer in every document of that language. -/
theorem build_answered {doc : Document} (h : build workspace settings language = .ok rules)
    (hlanguage : doc.language = language) (htoolkit : doc.toolkit = workspace.toolkit) :
    rules.Answered doc := by
  obtain ⟨read, hread, h⟩ := Outcome.bind_eq_ok.1 h
  obtain ⟨_, hcheck, h⟩ := Outcome.bind_eq_ok.1 h
  cases h
  rw [← htoolkit] at hcheck
  rw [← hlanguage] at hread
  exact Validity.check_answered (language_of_rulesFor hread) hcheck

theorem hasCatchAll_of_build (h : build workspace settings language = .ok rules)
    (hstrict : settings.strict) : rules.indent.hasCatchAll := by
  obtain ⟨read, -, h⟩ := Outcome.bind_eq_ok.1 h
  obtain ⟨_, hcheck, h⟩ := Outcome.bind_eq_ok.1 h
  cases h
  obtain ⟨_, -, -, htotal, -⟩ := Validity.check_eq_ok hcheck
  by_contra hno
  simp [Validity.checkTotal, hstrict, hno] at htotal

/-- Rules that were built for a language never fail on a document of that language because of a
predicate or a query, whatever is asked; and if they had to be total, every line has a rule. -/
theorem build_faultless {doc : Document} (h : build workspace settings language = .ok rules)
    (hlanguage : doc.language = language) (htoolkit : doc.toolkit = workspace.toolkit) :
    (∀ unit row, Faultless (Indentation.ofRow doc rules.indent unit row)) ∧
    (∀ enabled range, Faultless (Highlight.project doc rules.highlight enabled range)) ∧
    (∀ place, Faultless (Thing.classify doc rules.things place)) ∧
    (settings.strict → ∀ row : Int, 0 ≤ row → row < doc.source.rows → ∃ target rule,
      Target.ofRow doc row = .ok target ∧ rules.indent.ruleFor doc target = .ok (some rule)) := by
  have hanswered := build_answered h hlanguage htoolkit
  refine ⟨fun unit row => Indentation.ofRow_faultless hanswered.indent unit row,
    fun enabled range => Highlight.project_faultless hanswered enabled,
    fun place => Thing.classify_faultless hanswered.things hanswered.firstMatch place, ?_⟩
  intro hstrict row hfirst hlast
  have htarget : Target.ofRow doc row = .ok (Target.ofRowAt doc row.toNat) := by
    simp [Target.ofRow, Source.checkRow, hfirst, hlast, Except.map]
  obtain ⟨rule, hrule⟩ := Table.ruleFor_of_hasCatchAll (hasCatchAll_of_build h hstrict)
    (hanswered.indent _ (Target.placed_of_ofRow htarget))
  exact ⟨_, rule, htarget, hrule⟩

/-! ## Rules for words -/

/-- Whatever is not captured, with the query inside further tests. -/
def uncapturedTest : Value :=
  .mapping [("not", Ruleset.Entry.any [Ruleset.Entry.noNode,
    .mapping [("query", .text "(word) @word"), ("capture", .text "word")]])]

def wordRules : Value :=
  Ruleset.Entry.document "words" "words" [["words"]]
    [Ruleset.Entry.highlight "Words" "words" "(word) @word" .override
      [Ruleset.Entry.tagged uncapturedTest "rest"]]
    [Ruleset.Entry.indent "Rest" uncapturedTest .parentLine true,
      Ruleset.Entry.indent "Margin" Ruleset.Entry.always .margin]
    [Ruleset.Entry.thing "Names"
      (.mapping [("field", .mapping [("name", .text "name"), ("match", uncapturedTest)])]) .text]
    []

def wordWorkspace : Workspace where
  files := [("words.yml", .mapping [("loaded", wordRules)])]
  toolkit :=
    { grammar := fun language =>
        if language == "words" then .ok ⟨(· == "word"), (· == "name")⟩ else .error "no grammar"
      captureNames := fun _ query =>
        if query == "(word) @word" then .ok ["word"] else .error "no query" }

def wordSettings : RulesSettings := { file := some "words.yml", ruleset := "words", strict := true }

/-- The line `ab`, which is one word. -/
def wordDocument : Document where
  language := "words"
  source := Source.ofBytes [97, 98]
  tree := .node ⟨0, "word", 0, 2, true, none, false⟩ []
  captures _ _ := [("word", [⟨.node ⟨0, "word", 0, 2, true, none, false⟩ [], []⟩])]
  toolkit := wordWorkspace.toolkit

theorem build_faultless_words : ∃ rules,
    build wordWorkspace wordSettings "words" = .ok rules ∧ wordSettings.strict ∧
    Faultless (Indentation.ofRow wordDocument rules.indent 4 0) ∧
    Faultless (Highlight.project wordDocument rules.highlight [.text "words"] none) ∧
    Faultless (Thing.classify wordDocument rules.things wordDocument.root) ∧
    ∃ target rule, Target.ofRow wordDocument 0 = .ok target ∧
      rules.indent.ruleFor wordDocument target = .ok (some rule) := by
  obtain ⟨rules, hrules⟩ : ∃ rules, build wordWorkspace wordSettings "words" = .ok rules :=
    ⟨_, by cbv⟩
  obtain ⟨hindent, hhighlight, hthings, htotal⟩ := build_faultless hrules rfl
    (rfl : wordDocument.toolkit = wordWorkspace.toolkit)
  exact ⟨rules, hrules, rfl, hindent 4 0, hhighlight _ none, hthings _,
    htotal rfl 0 (by decide) (by decide)⟩

end Session

end TreeRules
