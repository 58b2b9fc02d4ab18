import Mathlib
import TreeRules.Proofs.Predicate.Shape
import TreeRules.Proofs.Ruleset.Lineage
import TreeRules.Ruleset.Entry

/-! # Shapes of rule documents

A rule document that cannot be read is refused with a fault of the document, as long as its sections
can be gone through, its rules are mappings, and the patterns, offsets and child numbers in them are
of the right kind. Otherwise an error of access can come first. Which one it is depends on the order
of reading; that every document that can be read has the right shape does not.
-/
namespace TreeRules

/-! ## Shapes -/

namespace Shape

/-- A value that can be gone through, each element of some shape. -/
def elements (shape : Value → Bool) (value : Value) : Bool :=
  match value.elements with
  | .ok items => items.all shape
  | .error _ => false

def refinement : Value → Bool
  | .mapping entries => (Value.under? "match" entries).all predicate
  | _ => false

def highlight : Value → Bool
  | .mapping entries => elements refinement ((Value.under? "refine" entries).getD (.list []))
  | _ => false

/-- Truth values are refused as offsets; what is neither that nor an integer is trimmed. -/
def offset : Value → Bool
  | .bool _ | .int _ | .text _ => true
  | _ => false

def indent : Value → Bool
  | .mapping entries =>
    offset ((Value.under? "offset" entries).getD (.int 0)) &&
      elements (fun _ => true) ((Value.under? "chain" entries).getD (.list [])) &&
      (Value.under? "match" entries).all predicate
  | _ => false

def thing : Value → Bool
  | .mapping entries => (Value.under? "match" entries).all predicate
  | _ => false

/-- A value that can be turned into an integer. -/
def integer : Value → Bool
  | .bool _ | .int _ => true
  | .real number => number.truncate?.isSome
  | .text content => (Value.integerOf? content.toList).isSome
  | _ => false

def nameSource : Value → Bool
  | .mapping [(key, value)] => !(key == "child" || key == "named_child") || integer value
  | _ => true

def names : Value → Bool
  | .mapping entries => entries.all fun entry => nameSource entry.2
  | _ => false

def levels (value : Value) : Bool :=
  !value.truthy || elements (elements fun _ => true) value

def highlights : Value → Bool
  | .mapping entries =>
    levels ((Value.under? "levels" entries).getD .null) &&
      elements highlight ((Value.under? "rules" entries).getD (.list []))
  | _ => false

/-- The sections of a ruleset. -/
def sections (entries : List (String × Value)) : Bool :=
  highlights ((Value.under? "highlight" entries).getD (.mapping [])) &&
    elements indent ((Value.under? "indent" entries).getD (.list [])) &&
    elements thing ((Value.under? "things" entries).getD (.list [])) &&
    names ((Value.under? "names" entries).getD (.mapping []))

/-- A ruleset with its sections. What is no mapping is refused as a ruleset. -/
def body : Value → Bool
  | .mapping entries => sections entries
  | _ => true

/-- The ruleset that another one extends can be looked up. -/
def extension : Value → Bool
  | .mapping entries => ((Value.under? "extends" entries).getD .null).isKey
  | _ => true

end Shape

namespace Ruleset

variable {α β : Type} {expected : Error → Bool} {entries : List (String × Value)}

/-! ## Parts of mappings -/

theorem fits_of_step {outcome : Outcome α} {next : α → Outcome β} {shape : Prop} {a : α}
    (h : outcome = .ok a) (hnext : Fits expected (next a) shape) :
    Fits expected (outcome >>= next) shape := by
  rw [h]
  exact hnext

theorem get_mapping {key : String} {value : Value} (h : Value.under? key entries = some value) :
    Value.get key (.mapping entries) = .ok value := by
  rw [Value.get, h]

theorem hasKey_error {key : String} {rule : Value} {error : Error}
    (h : rule.hasKey key = .error error) :
    error.isAccess = true ∧ ∀ entries, rule ≠ .mapping entries := by
  cases rule with
  | mapping entries => cases h
  | list items => cases h
  | text content => cases h
  | _ =>
    cases h
    exact ⟨rfl, nofun⟩

theorem under?_of_hasKey {key : String} (h : Value.hasKey key (.mapping entries) = .ok true) :
    ∃ value, Value.under? key entries = some value := by
  simp only [Value.hasKey, Except.ok.injEq, List.any_eq_true, beq_iff_eq] at h
  obtain ⟨entry, hentry, rfl⟩ := h
  cases hunder : Value.under? entry.1 entries with
  | some value => exact ⟨value, rfl⟩
  | none =>
    have hne := List.lookup_eq_none_iff.1 hunder entry hentry
    simp at hne

theorem get_error {key : String} {rule : Value} {error : Error} (hkey : rule.hasKey key = .ok true)
    (h : rule.get key = .error error) :
    error.isAccess = true ∧ ∀ entries, rule ≠ .mapping entries := by
  cases rule with
  | mapping entries =>
    obtain ⟨value, hvalue⟩ := under?_of_hasKey hkey
    rw [get_mapping hvalue] at h
    cases h
  | _ =>
    cases h
    exact ⟨rfl, nofun⟩

theorem require_error {kind : String} {rule : Value} {keys : List String} {error : Error}
    (h : require kind rule keys = .error error) :
    error.isRules = true ∨ error.isAccess = true ∧ ∀ entries, rule ≠ .mapping entries := by
  induction keys with
  | nil => cases h
  | cons key rest ih =>
    rw [require] at h
    obtain h | ⟨found, -, h⟩ := Outcome.bind_eq_error.1 h
    · exact .inr (hasKey_error h)
    · cases found with
      | true => exact ih h
      | false =>
        obtain h | ⟨named, hnamed, h⟩ := Outcome.bind_eq_error.1 h
        · exact .inr (hasKey_error h)
        · cases named with
          | true =>
            obtain h | ⟨name, -, h⟩ := Outcome.bind_eq_error.1 h
            · exact .inr (get_error hnamed h)
            · cases h
              exact .inl rfl
          | false =>
            cases h
            exact .inl rfl

theorem under?_of_require {kind key : String} {keys : List String}
    (h : require kind (.mapping entries) keys = .ok ()) (hkey : key ∈ keys) :
    ∃ value, Value.under? key entries = some value := by
  induction keys with
  | nil => cases hkey
  | cons first rest ih =>
    rw [require] at h
    obtain ⟨found, hfound, h⟩ := Outcome.bind_eq_ok.1 h
    cases found with
    | true =>
      rcases List.mem_cons.1 hkey with rfl | hrest
      · exact under?_of_hasKey hfound
      · exact ih h hrest
    | false =>
      obtain ⟨named, -, h⟩ := Outcome.bind_eq_ok.1 h
      cases named with
      | true =>
        obtain ⟨name, -, h⟩ := Outcome.bind_eq_ok.1 h
        cases h
      | false => cases h

theorem require_mapping_fits (kind : String) (keys : List String) :
    Fits Error.isRules (require kind (.mapping entries) keys) True := by
  refine ⟨fun _ _ => trivial, fun error herror => ?_⟩
  rcases require_error herror with hrules | ⟨-, hmapping⟩
  · exact .inl hrules
  · exact absurd rfl (hmapping entries)

-- A rule that is no mapping may have all keys that it needs, but then it has no values.
theorem require_other_fits {kind : String} {rule : Value} {keys : List String}
    {next : Unit → Outcome β}
    (hnext : ∃ error, next () = .error error ∧ error.isAccess = true) :
    Fits Error.isRules (require kind rule keys >>= next) (false = true) := by
  obtain ⟨access, hnext, haccess⟩ := hnext
  constructor
  · intro b hb
    obtain ⟨_, -, hb⟩ := Outcome.bind_eq_ok.1 hb
    rw [hnext] at hb
    cases hb
  · intro error herror
    rcases Outcome.bind_eq_error.1 herror with herror | ⟨_, -, herror⟩
    · rcases require_error herror with hrules | ⟨haccess, -⟩
      · exact .inl hrules
      · exact .inr ⟨haccess, Bool.false_ne_true⟩
    · rw [hnext] at herror
      cases herror
      exact .inr ⟨haccess, Bool.false_ne_true⟩

theorem elements_error {value : Value} {error : Error} (h : value.elements = .error error) :
    error.isAccess = true := by
  cases value with
  | list items => cases h
  | text content => cases h
  | mapping entries => cases h
  | _ =>
    cases h
    rfl

theorem elements_fits {next : List Value → Outcome β} {shape : Value → Bool} {value : Value}
    {other : Prop}
    (hnext : ∀ items, Fits expected (next items) ((∀ item ∈ items, shape item = true) ∧ other)) :
    Fits expected (value.elements >>= next) (Shape.elements shape value = true ∧ other) := by
  unfold Shape.elements
  cases helements : value.elements with
  | ok items =>
    refine (hnext items).congr ?_
    rw [← List.all_eq_true]
  | error error => exact .access (elements_error helements) fun hboth => by cases hboth.1

theorem elements_fits_any (value : Value) :
    Fits expected value.elements (Shape.elements (fun _ => true) value = true) := by
  unfold Shape.elements
  cases helements : value.elements with
  | ok items => exact .ok items (List.all_eq_true.2 fun _ _ => rfl)
  | error error => exact .access (elements_error helements) Bool.false_ne_true

theorem choice_fits (what : String) (all : List α) (name : α → String) (value : Value) :
    Fits Error.isRules (choice what all name value) True := by
  unfold choice
  split
  · exact .ok _ trivial
  · exact .fault rfl

/-! ## Single rules -/

theorem layeringOf_fits (value : Value) : Fits Error.isRules (layeringOf value) True := by
  unfold layeringOf
  split
  · exact .ok _ trivial
  · exact .ok _ trivial
  · exact .ok _ trivial
  · exact choice_fits "override mode" Layering.all Layering.name _

theorem refinementOf_fits (rule : Value) :
    Fits Error.isRules (refinementOf rule) (Shape.refinement rule = true) := by
  unfold refinementOf
  cases rule with
  | mapping entries =>
    refine (require_mapping_fits "Refine" ["match"]).bind_of_true fun _ hrequire => ?_
    obtain ⟨test, htest⟩ := under?_of_require hrequire List.mem_cons_self
    refine fits_of_step (get_mapping htest) ?_
    rw [Shape.refinement, htest]
    exact (Predicate.ofValue_fits test).bind_ok fun _ => ⟨_, rfl⟩
  | _ => exact require_other_fits ⟨.wrongKind, rfl, rfl⟩

theorem highlightOf_fits (rule : Value) :
    Fits Error.isRules (highlightOf rule) (Shape.highlight rule = true) := by
  unfold highlightOf
  cases rule with
  | mapping entries =>
    refine (require_mapping_fits "Highlight" ["feature", "query"]).bind_of_true
      fun _ hrequire => ?_
    obtain ⟨feature, hfeature⟩ := under?_of_require hrequire (by simp : "feature" ∈ _)
    obtain ⟨query, hquery⟩ := under?_of_require hrequire (by simp : "query" ∈ _)
    refine fits_of_step (get_mapping hfeature) (fits_of_step (get_mapping hquery) ?_)
    refine fits_of_step rfl ((layeringOf_fits _).bind_of_true fun _ _ => ?_)
    refine fits_of_step rfl (fits_of_step rfl ?_)
    rw [Shape.highlight]
    refine (elements_fits fun items => ?_).congr (and_iff_left trivial)
    refine (Fits.mapM fun item _ => refinementOf_fits item).bind fun _ _ => ?_
    exact .ok _ trivial
  | _ => exact require_other_fits ⟨.wrongKind, rfl, rfl⟩

theorem offset_fits (value : Value) :
    Fits Error.isRules (Predicate.inDocument (Offset.ofValue value))
      (Shape.offset value = true) := by
  refine Predicate.inDocument_fits ?_
  cases value with
  | bool flag => exact .fault rfl
  | int number => exact .ok _ rfl
  | text content =>
    rw [Offset.ofValue]
    split
    · exact .ok _ rfl
    · exact .fault rfl
  | _ => exact .access rfl Bool.false_ne_true

theorem indentOf_fits (rule : Value) :
    Fits Error.isRules (indentOf rule) (Shape.indent rule = true) := by
  unfold indentOf
  cases rule with
  | mapping entries =>
    refine (require_mapping_fits "Indent" ["match", "anchor"]).bind_of_true fun _ hrequire => ?_
    obtain ⟨test, htest⟩ := under?_of_require hrequire (by simp : "match" ∈ _)
    obtain ⟨anchor, hanchor⟩ := under?_of_require hrequire (by simp : "anchor" ∈ _)
    rw [Shape.indent, htest, Bool.and_eq_true, Bool.and_eq_true, and_assoc]
    refine fits_of_step rfl ((offset_fits _).bind fun _ _ => ?_)
    refine fits_of_step (get_mapping hanchor) ?_
    refine (choice_fits "anchor" Anchor.all Anchor.name anchor).bind_of_true fun _ _ => ?_
    refine fits_of_step rfl (elements_fits fun items => ?_)
    refine (fits_of_step (get_mapping htest) ?_ : Fits _ _ (Shape.predicate test = true)).congr ?_
    · exact (Predicate.ofValue_fits test).bind_ok fun _ => ⟨_, rfl⟩
    · simp
  | _ => exact require_other_fits ⟨.noPart, rfl, rfl⟩

theorem thingOf_fits (rule : Value) :
    Fits Error.isRules (thingOf rule) (Shape.thing rule = true) := by
  unfold thingOf
  cases rule with
  | mapping entries =>
    refine (require_mapping_fits "Thing" ["match", "category"]).bind_of_true fun _ hrequire => ?_
    obtain ⟨test, htest⟩ := under?_of_require hrequire (by simp : "match" ∈ _)
    obtain ⟨category, hcategory⟩ := under?_of_require hrequire (by simp : "category" ∈ _)
    refine fits_of_step (get_mapping hcategory) ?_
    refine (choice_fits "category" Category.all Category.name category).bind_of_true fun _ _ => ?_
    refine fits_of_step (get_mapping htest) ?_
    rw [Shape.thing, htest]
    exact (Predicate.ofValue_fits test).bind_ok fun _ => ⟨_, rfl⟩
  | _ => exact require_other_fits ⟨.wrongKind, rfl, rfl⟩

theorem toInteger_fits (value : Value) :
    Fits expected value.toInteger (Shape.integer value = true) := by
  cases value with
  | bool flag => exact .ok _ rfl
  | int number => exact .ok _ rfl
  | real number =>
    rw [Value.toInteger, Shape.integer]
    split
    next hsome => exact .ok _ (by rw [hsome]; rfl)
    next hnone => exact .access rfl (by simp [hnone])
  | text content =>
    rw [Value.toInteger, Shape.integer]
    split
    next hsome => exact .ok _ (by rw [hsome]; rfl)
    next hnone => exact .access rfl (by simp [hnone])
  | _ => exact .access rfl Bool.false_ne_true

theorem nameSourceOf_fits (kind : String) (value : Value) :
    Fits Error.isRules (nameSourceOf kind value) (Shape.nameSource value = true) := by
  unfold nameSourceOf Shape.nameSource
  split
  next key value =>
    split
    · exact .ok _ rfl
    · exact (toInteger_fits value).map
    · exact (toInteger_fits value).map
    · exact .fault rfl
  next => exact .fault rfl

/-! ## Rulesets -/

theorem levelsFor_fits (own : Own) (base : Option LanguageRules) :
    Fits Error.isRules (levelsFor own base) (Shape.levels own.levels = true) := by
  unfold levelsFor Shape.levels
  cases htruthy : own.levels.truthy with
  | false => exact .ok _ rfl
  | true =>
    refine (elements_fits fun items => ?_).congr (and_iff_left trivial)
    exact (Fits.mapM fun level _ => elements_fits_any level).congr (and_iff_left trivial).symm

theorem names_fits {next : List (String × NameSource) → Outcome β} (value : Value)
    (hnext : ∀ names, Fits Error.isRules (next names) True) :
    Fits Error.isRules (value.entries >>= fun entries => entries.mapM (fun (kind, value) => do
      return (kind, ← nameSourceOf kind value)) >>= next) (Shape.names value = true) := by
  cases value with
  | mapping entries =>
    rw [Shape.names, List.all_eq_true]
    refine ((Fits.mapM fun entry _ => ?_).bind fun names _ => hnext names).congr
      (and_iff_left trivial)
    exact (nameSourceOf_fits entry.1 entry.2).bind_ok fun _ => ⟨_, rfl⟩
  | _ => exact .access rfl Bool.false_ne_true

variable {parts : List (String × Value)}

-- The levels are taken as they are here, and looked at when the language is known.
theorem ownOf_fits
    (h : (Value.under? "highlight" entries).getD (.mapping []) = .mapping parts) :
    Fits Error.isRules (ownOf (.mapping entries))
      (Shape.elements Shape.highlight ((Value.under? "rules" parts).getD (.list [])) = true ∧
        Shape.elements Shape.indent ((Value.under? "indent" entries).getD (.list [])) = true ∧
        Shape.elements Shape.thing ((Value.under? "things" entries).getD (.list [])) = true ∧
        Shape.names ((Value.under? "names" entries).getD (.mapping [])) = true) := by
  unfold ownOf
  refine fits_of_step (congrArg Except.ok h) (fits_of_step rfl (fits_of_step rfl ?_))
  refine elements_fits fun items => ?_
  refine (Fits.mapM fun rule _ => highlightOf_fits rule).bind fun _ _ => ?_
  refine fits_of_step rfl (elements_fits fun items => ?_)
  refine (Fits.mapM fun rule _ => indentOf_fits rule).bind fun _ _ => ?_
  refine fits_of_step rfl (elements_fits fun items => ?_)
  refine (Fits.mapM fun rule _ => thingOf_fits rule).bind fun _ _ => ?_
  exact fits_of_step rfl (names_fits _ fun _ => .ok _ trivial)

theorem levels_of_ownOf {own : Own}
    (h : (Value.under? "highlight" entries).getD (.mapping []) = .mapping parts)
    (hown : ownOf (.mapping entries) = .ok own) :
    own.levels = (Value.under? "levels" parts).getD .null := by
  unfold ownOf at hown
  simp only [Outcome.bind_eq_ok, Outcome.pure_eq_ok, Value.getD, Except.ok.injEq] at hown
  obtain ⟨highlight, hhighlight, levels, hlevels, hown⟩ := hown
  rw [← hhighlight, h] at hlevels
  cases hlevels
  obtain ⟨_, -, _, -, _, -, _, -, _, -, _, -, _, -, _, -, _, -, _, -, _, -, _, -, rfl⟩ := hown
  rfl

theorem languageFor_fits (name : String) (given : Value) (base : Option LanguageRules) :
    Fits Error.isRules (languageFor name given base) True := by
  unfold languageFor
  generalize (if given.truthy = true then given else (base.map (·.language)).getD .null) = language
  dsimp only
  split
  · exact .ok _ trivial
  · exact .fault rfl

theorem extend_fits (name : String) (entries : List (String × Value))
    (base : Option LanguageRules) :
    Fits Error.isRules (extend name (.mapping entries) base) (Shape.sections entries = true) := by
  unfold extend
  refine fits_of_step rfl ((languageFor_fits name _ base).bind_of_true fun _ _ => ?_)
  unfold Shape.sections
  cases h : (Value.under? "highlight" entries).getD (.mapping []) with
  | mapping parts =>
    have hlevels : ∀ own, ownOf (.mapping entries) = .ok own →
        Fits Error.isRules (levelsFor own base)
          (Shape.levels ((Value.under? "levels" parts).getD .null) = true) := by
      intro own hown
      rw [← levels_of_ownOf h hown]
      exact levelsFor_fits own base
    refine ((ownOf_fits h).bind fun own hown =>
      (hlevels own hown).bind fun _ _ => .ok _ trivial).congr ?_
    simp only [Shape.highlights, Bool.and_eq_true]
    tauto
  | _ =>
    have hown : ownOf (.mapping entries) = .error .noPart := by
      unfold ownOf
      simp only [Value.getD, h]
      rfl
    rw [hown]
    exact .access rfl Bool.false_ne_true

theorem extendAll_fits (base : LanguageRules) {chain : List (String × Value)}
    (h : ∀ item ∈ chain, ∃ entries, item.2 = .mapping entries) :
    Fits Error.isRules (extendAll base chain) (∀ item ∈ chain, Shape.body item.2 = true) := by
  induction chain generalizing base with
  | nil => exact .ok base nofun
  | cons item rest ih =>
    obtain ⟨name, ruleset⟩ := item
    obtain ⟨⟨entries, rfl⟩, hrest⟩ := List.forall_mem_cons.1 h
    rw [extendAll, List.forall_mem_cons]
    exact (extend_fits name entries (some base)).bind fun next _ => ih next hrest

theorem stackAll_fits {chain : List (String × Value)} (hchain : chain ≠ [])
    (h : ∀ item ∈ chain, ∃ entries, item.2 = .mapping entries) :
    Fits Error.isRules (stackAll chain) (∀ item ∈ chain, Shape.body item.2 = true) := by
  cases chain with
  | nil => exact absurd rfl hchain
  | cons item rest =>
    obtain ⟨name, ruleset⟩ := item
    obtain ⟨⟨entries, rfl⟩, hrest⟩ := List.forall_mem_cons.1 h
    rw [stackAll, List.forall_mem_cons]
    exact (extend_fits name entries none).bind fun base _ => extendAll_fits base hrest

/-! ## Documents -/

/-- The rulesets that one comes by when links are followed from a name. -/
inductive Visits (rulesets : List (String × Value)) : Value → Value → Prop
  | here {name : String} {ruleset : Value} :
      Value.under? name rulesets = some ruleset → Visits rulesets (.text name) ruleset
  | further {name : String} {entries : List (String × Value)} {ruleset : Value} :
      Value.under? name rulesets = some (.mapping entries) →
      Visits rulesets ((Value.under? "extends" entries).getD .null) ruleset →
      Visits rulesets (.text name) ruleset

variable {rulesets : List (String × Value)}

theorem visits_text_iff {name : String} (h : Value.under? name rulesets = some (.mapping entries))
    {ruleset : Value} :
    Visits rulesets (.text name) ruleset ↔ ruleset = .mapping entries ∨
      Visits rulesets ((Value.under? "extends" entries).getD .null) ruleset := by
  constructor
  · intro hvisits
    cases hvisits with
    | here hruleset =>
      rw [h] at hruleset
      cases hruleset
      exact .inl rfl
    | further hruleset hfurther =>
      rw [h] at hruleset
      cases hruleset
      exact .inr hfurther
  · rintro (rfl | hfurther)
    · exact .here h
    · exact .further h hfurther

theorem Lineage.visits_iff {link : Value} {chain : List (String × Value)}
    (h : Lineage rulesets link chain) (shape : Value → Bool) :
    (∀ item ∈ chain, shape item.2 = true) ↔
      ∀ ruleset, Visits rulesets link ruleset → shape ruleset = true := by
  induction h with
  | root =>
    constructor
    · intro _ ruleset hvisits
      cases hvisits
    · intro _ item hitem
      cases hitem
  | @step name entries chain hname _ ih =>
    rw [List.forall_mem_cons, ih]
    constructor
    · rintro ⟨hfirst, hrest⟩ ruleset hvisits
      rcases (visits_text_iff hname).1 hvisits with rfl | hfurther
      · exact hfirst
      · exact hrest ruleset hfurther
    · intro hall
      refine ⟨hall _ (.here hname), fun ruleset hvisits => ?_⟩
      exact hall ruleset (.further hname hvisits)

-- Every step takes a ruleset away from those that are left, as in `ancestry_sound`.
theorem ancestry_fits (requested : String) {visited left : List (String × Value)} {link : Value}
    (hleft : LeftOf rulesets visited left)
    (hstart : visited = [] → ∃ name ruleset, link = .text name ∧
      Value.under? name rulesets = some ruleset) :
    Fits Error.isRules (ancestry requested visited left link) (link.isKey = true ∧
      ∀ ruleset, Visits rulesets link ruleset → Shape.extension ruleset = true) := by
  induction hn : left.length using Nat.strongRecOn generalizing visited left link with
  | ind n ih =>
    cases link with
    | null =>
      rw [ancestry]
      refine .ok visited ⟨rfl, fun _ hvisits => ?_⟩
      cases hvisits
    | text name =>
      rw [ancestry]
      split
      next => exact .fault rfl
      next hnew =>
        have hname : name ∉ namesOf visited := fun hmem => hnew (any_name_eq.2 hmem)
        have hunder := under?_eq_find? name rulesets
        rw [← hleft name hname] at hunder
        split
        next hnone =>
          cases visited with
          | cons last _ => exact .fault rfl
          | nil =>
            obtain ⟨_, ruleset, ⟨rfl⟩, hruleset⟩ := hstart rfl
            rw [hnone, hruleset] at hunder
            cases hunder
        next key entries hfind =>
          rw [hfind, Option.map_some] at hunder
          refine (ih _ (hn ▸ length_without_lt hfind) (hleft.visit name (.mapping entries))
            (fun hnil => absurd hnil (List.cons_ne_nil _ _)) rfl).congr ?_
          constructor
          · rintro ⟨hkey, hrest⟩
            refine ⟨rfl, fun ruleset hvisits => ?_⟩
            rcases (visits_text_iff hunder).1 hvisits with rfl | hfurther
            · exact hkey
            · exact hrest ruleset hfurther
          · rintro ⟨-, hall⟩
            refine ⟨hall _ (.here hunder), fun ruleset hvisits => ?_⟩
            exact hall ruleset (.further hunder hvisits)
        next => exact .fault rfl
    | _ =>
      rw [ancestry.eq_def]
      dsimp only
      split
      · cases visited with
        | cons last _ => exact .fault rfl
        | nil =>
          obtain ⟨_, _, ⟨⟩, _⟩ := hstart rfl
      next hkey => exact .access rfl fun hboth => hkey hboth.1

/-- All rulesets that a name leads to are in shape. -/
def Shaped (document : Value) (name : String) : Prop :=
  ∀ rulesets, rulesetsOf document = .ok rulesets → ∀ ruleset,
    Visits rulesets (.text name) ruleset →
      Shape.body ruleset = true ∧ Shape.extension ruleset = true

theorem rulesetsOf_error {document : Value} {error : Error}
    (h : rulesetsOf document = .error error) : error.isRules = true := by
  unfold rulesetsOf at h
  split at h
  · split at h <;> cases h <;> rfl
  · cases h
    rfl

theorem Lineage.mappings {link : Value} {chain : List (String × Value)}
    (h : Lineage rulesets link chain) : ∀ item ∈ chain, ∃ entries, item.2 = .mapping entries := by
  induction h with
  | root => exact nofun
  | step _ _ ih => exact List.forall_mem_cons.2 ⟨⟨_, rfl⟩, ih⟩

theorem lineage_fits {name : String} (h : rulesets.any (·.1 == name) = true) :
    Fits Error.isRules (ancestry name [] rulesets (.text name) >>= stackAll)
      (∀ ruleset, Visits rulesets (.text name) ruleset →
        Shape.body ruleset = true ∧ Shape.extension ruleset = true) := by
  have hruleset : ∃ ruleset, Value.under? name rulesets = some ruleset := by
    have hsome := List.find?_isSome.2 (List.any_eq_true.1 h)
    obtain ⟨found, hfound⟩ := Option.isSome_iff_exists.1 hsome
    exact ⟨found.2, by rw [under?_eq_find?, hfound, Option.map_some]⟩
  obtain ⟨ruleset, hruleset⟩ := hruleset
  have hlinks := ancestry_fits name leftOf_start fun _ => ⟨name, ruleset, rfl, hruleset⟩
  have hbodies : ∀ found, ancestry name [] rulesets (.text name) = .ok found →
      Fits Error.isRules (stackAll found)
        (∀ ruleset, Visits rulesets (.text name) ruleset → Shape.body ruleset = true) := by
    intro found hfound
    obtain ⟨chain, hchain, rfl, -⟩ := ancestry_sound leftOf_start hfound
    rw [List.append_nil]
    have hne : chain.reverse ≠ [] := by
      intro hnil
      rw [List.reverse_eq_nil_iff.1 hnil] at hchain
      cases hchain
    have hmappings : ∀ item ∈ chain.reverse, ∃ entries, item.2 = .mapping entries :=
      fun item hitem => hchain.mappings item (List.mem_reverse.1 hitem)
    refine (stackAll_fits hne hmappings).congr ?_
    rw [← hchain.visits_iff]
    simp only [List.mem_reverse]
  refine (hlinks.bind hbodies).congr ?_
  constructor
  · rintro ⟨⟨-, hextensions⟩, hshapes⟩ ruleset hvisits
    exact ⟨hshapes ruleset hvisits, hextensions ruleset hvisits⟩
  · intro hall
    exact ⟨⟨rfl, fun ruleset hvisits => (hall ruleset hvisits).2⟩,
      fun ruleset hvisits => (hall ruleset hvisits).1⟩

theorem ofDocument_fits (document : Value) (name : String) :
    Fits Error.isRules (LanguageRules.ofDocument document name) (Shaped document name) := by
  unfold LanguageRules.ofDocument
  cases hrulesets : rulesetsOf document with
  | error error => exact .fault (rulesetsOf_error hrulesets)
  | ok rulesets =>
    refine fits_of_step rfl ?_
    split
    next => exact .fault rfl
    next hany =>
      refine (lineage_fits (by simpa using hany)).congr ?_
      unfold Shaped
      constructor
      · intro hall found hfound
        rw [hrulesets] at hfound
        cases hfound
        exact hall
      · intro hall
        exact hall rulesets hrulesets

end Ruleset

end TreeRules
