import TreeRules.Proofs.Highlight.Provenance
import TreeRules.Proofs.Predicate.Sight
import TreeRules.Proofs.Value.Entries

/-! # The order of captures

A query engine answers with the nodes that are captured under each name, and lists the names in an
order of its own. The captures are sorted by where they start and how far they go, so this order
could only show in captures with the same ends. Where captures with different names differ in their
ends, the engine may list the names as it likes, and helpers may come and go.
-/
namespace TreeRules.Highlight

/-- The nodes that a query captures, under each name. -/
abbrev Answer := List (String × List Place)

namespace Answer

/-- Each name is listed once. -/
def Distinct (answer : Answer) : Prop := answer.Pairwise fun x y => x.1 ≠ y.1

/-- No two captures with different names have the same ends, helpers aside. -/
def Untied (answer : Answer) : Prop :=
  ∀ x ∈ answer, ∀ y ∈ answer, x.1 ≠ y.1 → isHelper x.1 = false → isHelper y.1 = false →
    ∀ place ∈ x.2, ∀ twin ∈ y.2, (place.start, place.stop) ≠ (twin.start, twin.stop)

/-- The names are listed in another order, or helpers were added or taken away. -/
inductive Rearranges : Answer → Answer → Prop
  | perm {answer other : Answer} : answer.Perm other → Rearranges answer other
  | add {answer : Answer} {name : String} (places : List Place) : isHelper name = true →
      (∀ entry ∈ answer, name ≠ entry.1) → Rearranges answer ((name, places) :: answer)
  | remove {answer : Answer} {name : String} (places : List Place) : isHelper name = true →
      Rearranges ((name, places) :: answer) answer
  | trans {answer middle other : Answer} : Rearranges answer middle → Rearranges middle other →
      Rearranges answer other

variable {answer other : Answer}

theorem Distinct.perm (h : Distinct answer) (hperm : answer.Perm other) : Distinct other :=
  (hperm.pairwise_iff Ne.symm).1 h

theorem Distinct.rearranges (h : Distinct answer) (hother : Rearranges answer other) :
    Distinct other := by
  induction hother with
  | perm hperm => exact h.perm hperm
  | add places _ hnew => exact List.pairwise_cons.2 ⟨hnew, h⟩
  | remove places _ => exact (List.pairwise_cons.1 h).2
  | trans _ _ ih ih' => exact ih' (ih h)

theorem Untied.rearranges (h : Untied answer) (hother : Rearranges answer other) :
    Untied other := by
  induction hother with
  | perm hperm =>
    intro x hx y hy
    exact h x (hperm.mem_iff.2 hx) y (hperm.mem_iff.2 hy)
  | add places hhelper _ =>
    intro x hx y hy hne hxname hyname
    rcases List.mem_cons.1 hx with rfl | hx
    · exact absurd hhelper (by simp [hxname])
    · rcases List.mem_cons.1 hy with rfl | hy
      · exact absurd hhelper (by simp [hyname])
      · exact h x hx y hy hne hxname hyname
  | remove places _ =>
    intro x hx y hy
    exact h x (List.mem_cons_of_mem _ hx) y (List.mem_cons_of_mem _ hy)
  | trans _ _ ih ih' => exact ih' (ih h)

/-! ## Captures under a name -/

theorem Rearranges.lookup (h : Rearranges answer other) (hdistinct : Distinct answer)
    {name : String} (hname : isHelper name = false) : other.lookup name = answer.lookup name := by
  have hmiss : ∀ {helper : String}, isHelper helper = true → (name == helper) = false := by
    intro helper hhelper
    refine beq_eq_false_iff_ne.2 ?_
    rintro rfl
    rw [hname] at hhelper
    cases hhelper
  induction h with
  | perm hperm => exact Entries.lookup_perm (List.pairwise_map.mpr hdistinct) hperm name
  | add places hhelper _ => rw [List.lookup_cons, hmiss hhelper]
  | remove places hhelper => rw [List.lookup_cons, hmiss hhelper]
  | trans hfirst _ ih ih' => rw [ih' (hdistinct.rearranges hfirst), ih hdistinct]

/-! ## Captures in order -/

theorem flatten_eq_flatMap (answer : Answer) :
    flatten answer = answer.flatMap fun entry => flatten [entry] := by
  simp only [flatten, List.flatMap_cons, List.flatMap_nil, List.append_nil]

theorem flatten_cons_helper {name : String} (h : isHelper name = true) (places : List Place)
    (answer : Answer) : flatten ((name, places) :: answer) = flatten answer := by
  simp [flatten, h]

/-- If of any two items one has no results, the results do not hang on the order of the items. -/
theorem flatMap_perm {α β : Type} {f : α → List β} {xs ys : List α} (h : xs.Perm ys)
    (hlone : xs.Pairwise fun x y => f x = [] ∨ f y = []) : xs.flatMap f = ys.flatMap f := by
  induction h with
  | nil => rfl
  | cons x _ ih => rw [List.flatMap_cons, List.flatMap_cons, ih (List.pairwise_cons.1 hlone).2]
  | swap x y _ =>
    simp only [List.flatMap_cons]
    rcases (List.pairwise_cons.1 hlone).1 x List.mem_cons_self with hempty | hempty
    · rw [hempty, List.nil_append, List.nil_append]
    · rw [hempty, List.nil_append, List.nil_append]
  | trans hfirst _ ih ih' =>
    have hmiddle := (hfirst.pairwise_iff fun hxy => hxy.symm).1 hlone
    exact (ih hlone).trans (ih' hmiddle)

theorem tied_before_iff {x y : Capture} : StableOrder.tied Capture.before x y = true ↔
    (x.place.start, x.place.stop) = (y.place.start, y.place.stop) := by
  simp only [StableOrder.tied, Capture.before, Bool.and_eq_true, Bool.or_eq_true,
    decide_eq_true_eq, beq_iff_eq, Prod.mk.injEq]
  omega

/-- All captures with the same ends have one name. -/
theorem Untied.lone (h : Untied answer) (hdistinct : Distinct answer) (capture : Capture) :
    answer.Pairwise fun x y =>
      (flatten [x]).filter (StableOrder.tied Capture.before capture) = [] ∨
        (flatten [y]).filter (StableOrder.tied Capture.before capture) = [] := by
  refine List.Pairwise.imp_of_mem ?_ hdistinct
  intro x y hx hy hne
  by_contra hboth
  obtain ⟨hsome, hsome'⟩ := not_or.1 hboth
  obtain ⟨one, hone⟩ := List.exists_mem_of_ne_nil _ hsome
  obtain ⟨two, htwo⟩ := List.exists_mem_of_ne_nil _ hsome'
  obtain ⟨hone, htied⟩ := List.mem_filter.1 hone
  obtain ⟨htwo, htied'⟩ := List.mem_filter.1 htwo
  obtain ⟨places, hentry, hplace, hname⟩ := mem_flatten hone
  obtain ⟨places', hentry', hplace', hname'⟩ := mem_flatten htwo
  obtain rfl := List.mem_singleton.1 hentry
  obtain rfl := List.mem_singleton.1 hentry'
  have hends := (tied_before_iff.1 htied).symm.trans (tied_before_iff.1 htied')
  exact h _ hx _ hy hne hname hname' _ hplace _ hplace' hends

theorem sorted_perm (h : Untied answer) (hdistinct : Distinct answer)
    (hperm : answer.Perm other) :
    (flatten other).mergeSort Capture.before = (flatten answer).mergeSort Capture.before := by
  refine StableOrder.mergeSort_congr before_trans before_total fun capture => ?_
  rw [flatten_eq_flatMap, flatten_eq_flatMap answer, List.filter_flatMap, List.filter_flatMap]
  exact (flatMap_perm hperm (h.lone hdistinct capture)).symm

theorem Rearranges.sorted (h : Rearranges answer other) (huntied : Untied answer)
    (hdistinct : Distinct answer) :
    (flatten other).mergeSort Capture.before = (flatten answer).mergeSort Capture.before := by
  induction h with
  | perm hperm => exact sorted_perm huntied hdistinct hperm
  | add places hhelper _ => rw [flatten_cons_helper hhelper]
  | remove places hhelper => rw [flatten_cons_helper hhelper]
  | trans hfirst _ ih ih' =>
    rw [ih' (huntied.rearranges hfirst) (hdistinct.rearranges hfirst), ih huntied hdistinct]

end Answer

/-! ## Layers -/

variable {doc : Document} {set : FeatureSet} {enabled : List Value} {range : Option (Int × Int)}
  {rule : HighlightRule} {captures : String → Option (Int × Int) → Answer}

theorem capturesOf_rearranged (h : ∀ query, rule.query = .text query →
      (flatten (captures query range)).mergeSort Capture.before =
        (flatten (doc.captures query range)).mergeSort Capture.before) :
    capturesOf { doc with captures } range rule = capturesOf doc range rule := by
  unfold capturesOf
  dsimp only
  cases hquery : doc.toolkit.compile (.text doc.language) rule.query with
  | error error => rfl
  | ok query =>
    have hsorted := h query.text (Toolkit.compile_text hquery)
    simp only [bind, Except.bind, hsorted]

theorem tagsOf_rearranged (h : ∀ refinement ∈ rule.refine.rules,
      Predicate.AnswersAs doc captures refinement.predicate.asked) (capture : Capture) :
    tagsOf { doc with captures } rule capture = tagsOf doc rule capture := by
  have hresolve : rule.refine.resolveAll { doc with captures } (Target.ofNode doc capture.place) =
      rule.refine.resolveAll doc (Target.ofNode doc capture.place) := by
    refine Table.resolveAll_congr fun refinement hrefinement => ?_
    rw [Predicate.holds, Predicate.holds,
      Predicate.evaluate_answersAs _ (h refinement hrefinement)]
  unfold tagsOf
  rw [← hresolve]
  rfl

theorem layersOfRule_rearranged
    (hcaptures : capturesOf { doc with captures } range rule = capturesOf doc range rule)
    (hasked : ∀ refinement ∈ rule.refine.rules,
      Predicate.AnswersAs doc captures refinement.predicate.asked) (feature : Value) :
    layersOfRule { doc with captures } range feature rule =
      layersOfRule doc range feature rule := by
  have hlayers : layersOfCapture { doc with captures } range feature rule =
      layersOfCapture doc range feature rule := by
    funext capture
    rw [layersOfCapture, layersOfCapture, tagsOf_rearranged hasked]
  rw [layersOfRule, layersOfRule, hcaptures, hlayers]

/-- The layers of a rule if the query engine gives another answer to its query. Refinements ask the
engine of the document as before. -/
def layersFrom (doc : Document) (range : Option (Int × Int)) (answers : HighlightRule → Answer)
    (feature : Value) (rule : HighlightRule) : List (Outcome Layer) :=
  match capturesOf { doc with captures := fun _ _ => answers rule } range rule with
  | .error error => [.error error]
  | .ok captures => captures.flatMap (layersOfCapture doc range feature rule)

/-- The spans of a document if the rules have the layers that are given. -/
def projectBy (doc : Document) (set : FeatureSet) (enabled : List Value)
    (layersFor : Value → HighlightRule → List (Outcome Layer)) : Outcome (List Span) := do
  doc.checkFresh
  if !enabled.all Value.isKey then throw .wrongKind
  let overlay ← Overlay.addAll [] (set.features.flatMap fun feature =>
    if !feature.isKey then [.error .wrongKind]
    else if feature.memberOf enabled then (set.rulesFor feature).flatMap (layersFor feature)
    else [])
  if !enabled.all isText then throw .wrongKind
  return overlay.spans

theorem project_eq_projectBy : project doc set enabled range =
    projectBy doc set enabled (layersOfRule doc range) := rfl

theorem projectBy_congr {layersFor others : Value → HighlightRule → List (Outcome Layer)}
    (h : ∀ rule ∈ set.rules, ∀ feature, others feature rule = layersFor feature rule) :
    projectBy doc set enabled others = projectBy doc set enabled layersFor := by
  have hrules : ∀ feature, (set.rulesFor feature).flatMap (others feature) =
      (set.rulesFor feature).flatMap (layersFor feature) := by
    intro feature
    exact List.flatMap_congr fun rule hrule => h rule (List.mem_filter.1 hrule).1 feature
  unfold projectBy
  simp only [hrules]

/-- The spans of a document if the query engine gives other answers to the queries of rules. -/
def projectFrom (doc : Document) (set : FeatureSet) (enabled : List Value)
    (range : Option (Int × Int)) (answers : HighlightRule → Answer) : Outcome (List Span) :=
  projectBy doc set enabled (layersFrom doc range answers)

/-- The order in which the query engine lists names does not show, nor do helpers, provided that no
two captures of a rule with different names have the same ends. This holds if only the answers to
the queries of rules are rearranged. It also holds if all answers are, as long as refinements find
the helpers that they ask for. -/
theorem project_rearranged (doc : Document) (set : FeatureSet) (enabled : List Value)
    (range : Option (Int × Int))
    (hdistinct : ∀ query bounds, Answer.Distinct (doc.captures query bounds))
    (huntied : ∀ rule ∈ set.rules, ∀ query, rule.query = .text query →
      Answer.Untied (doc.captures query range)) :
    (∀ answers : HighlightRule → Answer,
      (∀ rule ∈ set.rules, ∀ query, rule.query = .text query →
        Answer.Rearranges (doc.captures query range) (answers rule)) →
      projectFrom doc set enabled range answers = project doc set enabled range) ∧
    ∀ captures : String → Option (Int × Int) → Answer,
      (∀ query bounds, Answer.Rearranges (doc.captures query bounds) (captures query bounds)) →
      (∀ rule ∈ set.rules, ∀ refinement ∈ rule.refine.rules, ∀ query name,
        (.text query, .text name) ∈ refinement.predicate.asked → isHelper name = true →
        (captures query none).lookup name = (doc.captures query none).lookup name) →
      project { doc with captures } set enabled range = project doc set enabled range := by
  have hsorted : ∀ rule ∈ set.rules, ∀ query, rule.query = .text query → ∀ answer,
      Answer.Rearranges (doc.captures query range) answer →
      (flatten answer).mergeSort Capture.before =
        (flatten (doc.captures query range)).mergeSort Capture.before := by
    intro rule hrule query hquery answer hanswer
    exact hanswer.sorted (huntied rule hrule query hquery) (hdistinct query range)
  constructor
  · intro answers hanswers
    rw [projectFrom, project_eq_projectBy]
    refine projectBy_congr fun rule hrule feature => ?_
    have hcaptures : capturesOf { doc with captures := fun _ _ => answers rule } range rule =
        capturesOf doc range rule := by
      refine capturesOf_rearranged fun query hquery => ?_
      exact hsorted rule hrule query hquery _ (hanswers rule hrule query hquery)
    rw [layersFrom, hcaptures]
    rfl
  · intro captures hcaptures hhelpers
    have hproject : project { doc with captures } set enabled range =
        projectBy doc set enabled (layersOfRule { doc with captures } range) := rfl
    rw [hproject, project_eq_projectBy]
    refine projectBy_congr fun rule hrule feature => ?_
    refine layersOfRule_rearranged (capturesOf_rearranged fun query hquery => ?_) ?_ feature
    · exact hsorted rule hrule query hquery _ (hcaptures query range)
    · intro refinement hrefinement query name hname
      cases hhelper : isHelper name with
      | true => exact hhelpers rule hrule refinement hrefinement query name hname hhelper
      | false => exact (hcaptures query none).lookup (hdistinct query none) hhelper

/-! ### Words on a line -/

/-- The words, the line around them and, as a helper, the sign between them. -/
def nestedAnswer : Answer :=
  [("_sign", [wordsPlace 1]), ("word", [wordsPlace 0, wordsPlace 2]), ("line", [⟨wordsTree, []⟩])]

def nestedDocument : Document := { wordsDocument with captures := fun _ _ => nestedAnswer }

/-- Words override the line, whichever is listed first. -/
def sortedFeatures : FeatureSet where
  levels := [[.text "words"]]
  rules :=
    [{ feature := .text "words", query := .text "words", layering := .override,
       refine := { rules := [⟨.captured (.text "words") (.text "word"), .text "inner", .null⟩,
         ⟨.always, .text "outer", .null⟩] } }]

theorem rearranges_nested : Answer.Rearranges nestedAnswer
    [("line", [⟨wordsTree, []⟩]), ("word", [wordsPlace 0, wordsPlace 2])] :=
  (Answer.Rearranges.remove _ (by decide)).trans (.perm (.swap _ _ _))

theorem untied_nested : Answer.Untied nestedAnswer := by
  unfold Answer.Untied nestedAnswer
  decide

theorem distinct_nested : Answer.Distinct nestedAnswer := by
  unfold Answer.Distinct nestedAnswer
  decide

theorem project_rearranged_nested :
    let turned : Answer := [("line", [⟨wordsTree, []⟩]), ("word", [wordsPlace 0, wordsPlace 2])]
    project nestedDocument sortedFeatures [.text "words"] none =
      .ok [⟨0, 2, "inner", "words"⟩, ⟨2, 5, "outer", "words"⟩, ⟨5, 7, "inner", "words"⟩] ∧
    projectFrom nestedDocument sortedFeatures [.text "words"] none (fun _ => turned) =
      project nestedDocument sortedFeatures [.text "words"] none ∧
    project { nestedDocument with captures := fun _ _ => turned } sortedFeatures [.text "words"]
      none = project nestedDocument sortedFeatures [.text "words"] none := by
  intro turned
  obtain ⟨hrules, hengine⟩ := project_rearranged nestedDocument sortedFeatures [.text "words"] none
    (fun _ _ => distinct_nested) fun _ _ _ _ => untied_nested
  refine ⟨by cbv, hrules _ fun _ _ _ _ => rearranges_nested,
    hengine _ (fun _ _ => rearranges_nested) ?_⟩
  intro rule hrule refinement hrefinement query name hasked hhelper
  obtain rfl := List.mem_singleton.1 hrule
  simp only [List.mem_cons, List.not_mem_nil, or_false] at hrefinement
  -- Only the first refinement asks for captures, and these are no helpers.
  rcases hrefinement with rfl | rfl
  · cases List.mem_singleton.1 hasked
    exact absurd hhelper (by decide)
  · cases hasked

-- If one node is captured under two names, the name that is listed last stays.
example :
    let spansOf (answer : Answer) :=
      project { wordsDocument with captures := fun _ _ => answer }
        { levels := [[.text "lines"]],
          rules := [{ feature := .text "lines", query := .text "lines", layering := .override }] }
        [.text "lines"] none
    spansOf [("line", [⟨wordsTree, []⟩]), ("row", [⟨wordsTree, []⟩])] =
        .ok [⟨0, 7, "row", "lines"⟩] ∧
      spansOf [("row", [⟨wordsTree, []⟩]), ("line", [⟨wordsTree, []⟩])] =
        .ok [⟨0, 7, "line", "lines"⟩] := by
  refine ⟨?_, ?_⟩ <;> cbv

end TreeRules.Highlight
