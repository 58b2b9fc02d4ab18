import Mathlib
import TreeRules.Proofs.FirstMatch
import TreeRules.Proofs.Ruleset.Lineage
import TreeRules.Proofs.Value.Entries
import TreeRules.Ruleset.Entry

/-! # Inherited rules

A ruleset is read on top of the rules that it extends, so the rules of a whole lineage come out of a
series of extensions. What they amount to depends only on what each ruleset of the lineage says
itself: rules of indentation and navigation stand from the most derived ruleset to the base,
highlight rules the other way round, and of levels, language and names the most derived ones win.
-/
namespace TreeRules.Ruleset

variable {name : String} {ruleset : Value} {rules : LanguageRules}

/-! ## One extension -/

/-- The language that a ruleset gives itself. -/
def languageOf? (ruleset : Value) : Option Value :=
  match ruleset.getD "language" .null with
  | .ok given => if given.truthy then some given else none
  | .error _ => none

theorem languageFor_eq_ok {given language : Value} {base : Option LanguageRules}
    (hgiven : ruleset.getD "language" .null = .ok given)
    (h : languageFor name given base = .ok language) :
    (languageOf? ruleset).or (base.map (·.language)) = some language := by
  unfold languageFor at h
  unfold languageOf?
  rw [hgiven]
  by_cases ht : given.truthy
  · simp only [ht, if_true, Except.ok.injEq] at h
    subst h
    simp [ht]
  · simp only [ht, Bool.false_eq_true, if_false] at h
    cases base with
    | none => cases h
    | some base =>
      simp only [Option.map_some, Option.getD_some] at h
      split at h
      · cases h
        simp [ht]
      · cases h

theorem lookup_filter_key {α : Type} (keep : String → Bool) {entries : List (String × α)}
    {key : String} (h : keep key) :
    (entries.filter fun (k, _) => keep k).lookup key = entries.lookup key := by
  induction entries with
  | nil => rfl
  | cons first rest ih =>
    obtain ⟨k, value⟩ := first
    by_cases hk : key = k
    · subst hk
      simp [h]
    · have hk' : (key == k) = false := beq_eq_false_iff_ne.2 hk
      by_cases hkeep : keep k
      · simp [List.lookup_cons, hkeep, hk', ih]
      · simp [List.lookup_cons, hkeep, hk', ih]

theorem lookup_mergeNames (base own : List (String × NameSource)) (kind : String) :
    (mergeNames base own).lookup kind = (own.lookup kind).or (base.lookup kind) := by
  have hmap := Entries.lookup_map_value (fun k source => (own.lookup k).getD source) base kind
  unfold mergeNames
  rw [List.lookup_append, hmap]
  cases hbase : base.lookup kind with
  | some source => cases own.lookup kind <;> rfl
  | none =>
    have hnew : (!base.any (·.1 == kind)) = true := by
      rw [Bool.not_eq_true', List.any_eq_false]
      intro entry hentry heq
      have hne := List.lookup_eq_none_iff.1 hbase entry hentry
      simp only [beq_iff_eq] at heq
      simp [heq] at hne
    rw [lookup_filter_key (fun k => !base.any (·.1 == k)) hnew]
    cases own.lookup kind <;> rfl

/-- A ruleset with its own rules on top of the ones that it extends. -/
structure Extends (ruleset : Value) (own : Own) (base : Option LanguageRules)
    (rules : LanguageRules) : Prop where
  reads : ownOf ruleset = .ok own
  indent : rules.indent.rules = own.indent ++ (base.map (·.indent.rules)).getD []
  things : rules.things.rules = own.things ++ (base.map (·.things.rules)).getD []
  highlight : rules.highlight.rules = (base.map (·.highlight.rules)).getD [] ++ own.highlight
  levels : levelsFor own base = .ok rules.highlight.levels
  language : (languageOf? ruleset).or (base.map (·.language)) = some rules.language
  names (kind : String) : rules.names.lookup kind =
    (own.names.lookup kind).or (base.bind (·.names.lookup kind))

theorem extend_eq_ok {base : Option LanguageRules} (h : extend name ruleset base = .ok rules) :
    ∃ own, Extends ruleset own base rules := by
  simp only [extend, Outcome.bind_eq_ok, Outcome.pure_eq_ok] at h
  obtain ⟨given, hgiven, language, hlanguage, own, hown, levels, hlevels, rfl⟩ := h
  refine ⟨own, hown, ?_, ?_, ?_, hlevels, languageFor_eq_ok hgiven hlanguage, ?_⟩
  · cases base <;> rfl
  · cases base <;> rfl
  · cases base <;> rfl
  · intro kind
    cases base with
    | none => simp [lookup_mergeNames]
    | some base => simp [lookup_mergeNames]

/-! ## Series of extensions -/

/-- Rules that come out of a lineage, from the most derived ruleset to the base. -/
inductive Stacked : List (String × Value) → LanguageRules → Prop
  | base {name : String} {ruleset : Value} {rules : LanguageRules} :
      extend name ruleset none = .ok rules → Stacked [(name, ruleset)] rules
  | on {name : String} {ruleset : Value} {chain : List (String × Value)}
      {inherited rules : LanguageRules} : Stacked chain inherited →
      extend name ruleset (some inherited) = .ok rules → Stacked ((name, ruleset) :: chain) rules

theorem Stacked.on_inv {chain : List (String × Value)} (hchain : chain ≠ [])
    (h : Stacked ((name, ruleset) :: chain) rules) :
    ∃ inherited, Stacked chain inherited ∧ extend name ruleset (some inherited) = .ok rules := by
  cases h with
  | base _ => exact absurd rfl hchain
  | on hinherited hextend => exact ⟨_, hinherited, hextend⟩

theorem extendAll_append (base : LanguageRules) (front back : List (String × Value)) :
    extendAll base (front ++ back) =
      (extendAll base front >>= fun rules => extendAll rules back) := by
  induction front generalizing base with
  | nil => rfl
  | cons first rest ih =>
    obtain ⟨name, ruleset⟩ := first
    simp only [List.cons_append, extendAll]
    cases extend name ruleset (some base) with
    | error error => rfl
    | ok next => exact ih next

theorem extendAll_singleton (base : LanguageRules) :
    extendAll base [(name, ruleset)] = extend name ruleset (some base) := by
  simp only [extendAll]
  cases extend name ruleset (some base) <;> rfl

theorem stackAll_reverse_cons {chain : List (String × Value)} (h : chain ≠ []) :
    stackAll (((name, ruleset) :: chain).reverse) =
      (stackAll chain.reverse >>= fun inherited => extend name ruleset (some inherited)) := by
  -- The head of a lineage is the last ruleset to be read.
  rw [List.reverse_cons]
  cases hchain : chain.reverse with
  | nil => exact absurd (List.reverse_eq_nil_iff.1 hchain) h
  | cons first derived =>
    simp only [List.cons_append, stackAll, extendAll_append, extendAll_singleton, bind_assoc]

theorem stackAll_eq_ok_iff {chain : List (String × Value)} :
    stackAll chain.reverse = .ok rules ↔ Stacked chain rules := by
  induction chain generalizing rules with
  | nil => exact ⟨nofun, nofun⟩
  | cons first rest ih =>
    obtain ⟨name, ruleset⟩ := first
    by_cases hrest : rest = []
    · subst hrest
      have hone : stackAll [(name, ruleset)].reverse = extend name ruleset none := by
        simp only [List.reverse_singleton, stackAll]
        cases extend name ruleset none <;> rfl
      rw [hone]
      constructor
      · exact .base
      · rintro (h | ⟨h, -⟩)
        · exact h
        · cases h
    · rw [stackAll_reverse_cons hrest, Outcome.bind_eq_ok]
      constructor
      · rintro ⟨inherited, hinherited, h⟩
        exact .on (ih.1 hinherited) h
      · intro h
        obtain ⟨inherited, hinherited, hextend⟩ := h.on_inv hrest
        exact ⟨inherited, ih.2 hinherited, hextend⟩

/-! ## Whole lineages -/

/-- The levels of the most derived ruleset that gives any. -/
def levelsFrom (owns : List Own) : Outcome (List (List Value)) :=
  match owns.find? (·.levels.truthy) with
  | some own => levelsOf own.levels
  | none => .ok []

/-- What a lineage passes on, given what each of its rulesets says itself. Both lists go from the
most derived ruleset to the base. -/
structure Inherits (chain : List (String × Value)) (owns : List Own) (rules : LanguageRules) :
    Prop where
  reads : List.Forall₂ (fun item own => ownOf item.2 = .ok own) chain owns
  indent : rules.indent.rules = (owns.map (·.indent)).flatten
  things : rules.things.rules = (owns.map (·.things)).flatten
  highlight : rules.highlight.rules = (owns.reverse.map (·.highlight)).flatten
  levels : levelsFrom owns = .ok rules.highlight.levels
  language : chain.findSome? (languageOf? ·.2) = some rules.language
  names (kind : String) : rules.names.lookup kind = owns.findSome? (·.names.lookup kind)

theorem levelsFrom_cons (own : Own) (owns : List Own) :
    levelsFrom (own :: owns) =
      if own.levels.truthy then levelsOf own.levels else levelsFrom owns := by
  unfold levelsFrom
  rw [List.find?_cons]
  cases own.levels.truthy <;> rfl

theorem Extends.inherits_base {own : Own} (h : Extends ruleset own none rules) :
    Inherits [(name, ruleset)] [own] rules where
  reads := .cons h.reads .nil
  indent := by simpa using h.indent
  things := by simpa using h.things
  highlight := by simpa using h.highlight
  levels := by
    rw [levelsFrom_cons, ← h.levels]
    rfl
  language := by simpa using h.language
  names kind := by simpa using h.names kind

theorem Extends.inherits_on {own : Own} {owns : List Own} {chain : List (String × Value)}
    {inherited : LanguageRules} (h : Extends ruleset own (some inherited) rules)
    (hbase : Inherits chain owns inherited) :
    Inherits ((name, ruleset) :: chain) (own :: owns) rules where
  reads := .cons h.reads hbase.reads
  indent := by simpa [hbase.indent] using h.indent
  things := by simpa [hbase.things] using h.things
  highlight := by simpa [hbase.highlight] using h.highlight
  levels := by
    rw [levelsFrom_cons, ← h.levels, hbase.levels]
    rfl
  language := by
    rw [List.findSome?_cons, ← h.language, hbase.language]
    cases languageOf? ruleset <;> rfl
  names kind := by
    rw [List.findSome?_cons, h.names kind, Option.bind_some, hbase.names kind]
    cases own.names.lookup kind <;> rfl

/-- Rules that come out of a lineage are what it passes on. -/
theorem Stacked.inherits {chain : List (String × Value)} (h : Stacked chain rules) :
    ∃ owns, Inherits chain owns rules := by
  induction h with
  | base hextend =>
    obtain ⟨own, hown⟩ := extend_eq_ok hextend
    exact ⟨[own], hown.inherits_base⟩
  | on _ hextend ih =>
    obtain ⟨owns, howns⟩ := ih
    obtain ⟨own, hown⟩ := extend_eq_ok hextend
    exact ⟨own :: owns, hown.inherits_on howns⟩

/-- Rules of a ruleset stand at the end of those of every ruleset that derives from it. -/
theorem Stacked.split {front back : List (String × Value)} (hback : back ≠ [])
    (h : Stacked (front ++ back) rules) :
    ∃ base, Stacked back base ∧ (∃ above, rules.indent.rules = above ++ base.indent.rules) ∧
      ∃ above, rules.things.rules = above ++ base.things.rules := by
  induction front generalizing rules with
  | nil => exact ⟨rules, h, ⟨[], rfl⟩, [], rfl⟩
  | cons first front ih =>
    have hchain : front ++ back ≠ [] := List.append_ne_nil_of_right_ne_nil front hback
    obtain ⟨inherited, hinherited, hextend⟩ := h.on_inv hchain
    obtain ⟨base, hbase, ⟨indent, hindent⟩, things, hthings⟩ := ih hinherited
    obtain ⟨own, hown⟩ := extend_eq_ok hextend
    refine ⟨base, hbase, ⟨own.indent ++ indent, ?_⟩, own.things ++ things, ?_⟩
    · simpa [hindent] using hown.indent
    · simpa [hthings] using hown.things

theorem Lineage.any_name {rulesets chain : List (String × Value)}
    (h : Lineage rulesets (.text name) chain) : rulesets.any (·.1 == name) := by
  cases h with
  | step hname _ =>
    rw [under?_eq_find?] at hname
    obtain ⟨found, hfound, -⟩ := Option.map_eq_some_iff.1 hname
    have heq := List.find?_some hfound
    exact List.any_eq_true.2 ⟨found, List.mem_of_find?_eq_some hfound, heq⟩

theorem ofDocument_eq_ok {document : Value} :
    LanguageRules.ofDocument document name = .ok rules ↔ ∃ rulesets chain,
      rulesetsOf document = .ok rulesets ∧ rulesets.any (·.1 == name) ∧
        ancestry name [] rulesets (.text name) = .ok chain ∧ stackAll chain = .ok rules := by
  unfold LanguageRules.ofDocument
  simp only [Outcome.bind_eq_ok]
  constructor
  · rintro ⟨rulesets, hrulesets, h⟩
    split at h
    · cases h
    next hany =>
      obtain ⟨chain, hchain, hrules⟩ := Outcome.bind_eq_ok.1 h
      exact ⟨rulesets, chain, hrulesets, by simpa using hany, hchain, hrules⟩
  · rintro ⟨rulesets, chain, hrulesets, hany, hchain, hrules⟩
    refine ⟨rulesets, hrulesets, ?_⟩
    rw [if_neg (by simpa using hany)]
    exact Outcome.bind_eq_ok.2 ⟨chain, hchain, hrules⟩

/-- A ruleset has rules exactly if it has a lineage without repetitions that can be read from its
base on. -/
theorem ofDocument_eq_ok_iff {document : Value} :
    LanguageRules.ofDocument document name = .ok rules ↔ ∃ rulesets chain,
      rulesetsOf document = .ok rulesets ∧ Lineage rulesets (.text name) chain ∧
        (namesOf chain).Nodup ∧ Stacked chain rules := by
  rw [ofDocument_eq_ok]
  constructor
  · rintro ⟨rulesets, found, hrulesets, -, hfound, hrules⟩
    obtain ⟨chain, hchain, rfl, hnodup, -⟩ := ancestry_sound leftOf_start hfound
    rw [List.append_nil] at hrules
    exact ⟨rulesets, chain, hrulesets, hchain, hnodup, stackAll_eq_ok_iff.1 hrules⟩
  · rintro ⟨rulesets, chain, hrulesets, hchain, hnodup, hrules⟩
    have hfound := ancestry_complete name hchain leftOf_start hnodup nofun
    rw [List.append_nil] at hfound
    exact ⟨rulesets, chain.reverse, hrulesets, hchain.any_name, hfound,
      stackAll_eq_ok_iff.2 hrules⟩

/-- The rules of a ruleset are what its lineage passes on. Its tables of indentation and navigation
fall through from the most derived ruleset to the base, and every ruleset of the lineage has rules of
its own whose catch-alls stay catch-alls. -/
theorem ofDocument_inherits {document : Value}
    (h : LanguageRules.ofDocument document name = .ok rules) :
    ∃ rulesets chain owns, rulesetsOf document = .ok rulesets ∧
      Lineage rulesets (.text name) chain ∧ Inherits chain owns rules ∧
      rules.indent.FallsThrough (owns.map (·.indent)) ∧
      rules.things.FallsThrough (owns.map (·.things)) ∧
      ∀ item ∈ chain, ∃ base, LanguageRules.ofDocument document item.1 = .ok base ∧
        (base.indent.hasCatchAll → rules.indent.hasCatchAll) ∧
        (base.things.hasCatchAll → rules.things.hasCatchAll) := by
  obtain ⟨rulesets, chain, hrulesets, hchain, hnodup, hstacked⟩ := ofDocument_eq_ok_iff.1 h
  obtain ⟨owns, howns⟩ := hstacked.inherits
  refine ⟨rulesets, chain, owns, hrulesets, hchain, howns,
    Table.fallsThrough_of_flatten howns.indent, Table.fallsThrough_of_flatten howns.things, ?_⟩
  intro item hitem
  obtain ⟨front, rest, rfl⟩ := List.append_of_mem hitem
  obtain ⟨base, hbase, ⟨_, hindent⟩, _, hthings⟩ := hstacked.split (List.cons_ne_nil item rest)
  have hnodup' : (namesOf (item :: rest)).Nodup := by
    rw [namesOf, List.map_append] at hnodup
    exact hnodup.of_append_right
  refine ⟨base, ofDocument_eq_ok_iff.2 ⟨rulesets, _, hrulesets, hchain.suffix, hnodup', hbase⟩, ?_⟩
  exact ⟨Table.hasCatchAll_of_append hindent, Table.hasCatchAll_of_append hthings⟩

/-! ## Three rulesets -/

def plainRules : Value :=
  .mapping [("language", .text "python"),
    ("highlight", .mapping [("levels", .list [.list [.text "comment"]]),
      ("rules", .list [Entry.highlight "comments" "comment" "(comment) @comment"])]),
    ("indent", .list [Entry.indent "margin" Entry.always .margin]),
    ("names", .mapping [("class", .mapping [("field", .text "name")])])]

def hangingRules : Value :=
  .mapping [("extends", .text "plain"),
    ("indent", .list [Entry.indent "hanging" Entry.noNode .parentLine true])]

def nestedRules : Value :=
  .mapping [("extends", .text "hanging"), ("language", .text ""),
    ("things", .list [Entry.thing "any" Entry.always .text]),
    ("names", .mapping [("class", .mapping [("child", .int 1)])])]

/-- Rulesets in a row: the last one extends the middle one, and that one the first. -/
def rowOfRulesets : List (String × Value) :=
  [("plain", plainRules), ("hanging", hangingRules), ("nested", nestedRules)]

def rowDocument : Value := .mapping [("rulesets", .mapping rowOfRulesets)]

theorem lineage_row : Lineage rowOfRulesets (.text "nested") rowOfRulesets.reverse :=
  .step rfl (.step rfl (.step rfl .root))

theorem ofDocument_inherits_row : ∃ rules owns,
    LanguageRules.ofDocument rowDocument "nested" = .ok rules ∧
    Inherits rowOfRulesets.reverse owns rules ∧
    rules.indent.FallsThrough (owns.map (·.indent)) ∧ rules.indent.hasCatchAll ∧
    rules.language = .text "python" := by
  obtain ⟨rules, hrules⟩ : ∃ rules, LanguageRules.ofDocument rowDocument "nested" = .ok rules :=
    ⟨_, by cbv⟩
  obtain ⟨rulesets, chain, owns, ⟨rfl⟩, hchain, howns, hindent, -, hbases⟩ :=
    ofDocument_inherits hrules
  obtain rfl := hchain.unique lineage_row
  have hlanguage : rules.language = .text "python" :=
    Option.some.inj (howns.language.symm.trans rfl)
  obtain ⟨base, hbase, hcatch, -⟩ := hbases ("plain", plainRules) (by simp [rowOfRulesets])
  have hplain : (LanguageRules.ofDocument rowDocument "plain").map (·.indent.hasCatchAll) =
      .ok true := by cbv
  rw [hbase] at hplain
  exact ⟨rules, owns, hrules, howns, hindent, hcatch (by simpa [Except.map] using hplain), hlanguage⟩

end TreeRules.Ruleset
