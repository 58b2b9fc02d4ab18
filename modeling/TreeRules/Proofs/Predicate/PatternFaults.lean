import TreeRules.Proofs.Predicate.KeyOrder

/-! # Patterns that are not well formed

An entry of the right shape can only go wrong by the patterns in it. They are met in the order in
which the tests of a mapping are looked at, and the first that is not well formed is what is wrong
with the entry, in the same words from whatever depth.
-/
namespace TreeRules

/-- A pattern as it stands in a rule document. -/
structure WrittenPattern where
  use : PatternUse
  source : String

namespace WrittenPattern

def compiles (pattern : WrittenPattern) : Bool := (Pattern.ofText? pattern.source).isSome

def fault (pattern : WrittenPattern) : PredicateFault := .badPattern pattern.use pattern.source

def firstBad? (patterns : List WrittenPattern) : Option WrittenPattern :=
  patterns.find? fun pattern => !pattern.compiles

/-- The pattern that a value is, if it is one. -/
def ofValue (use : PatternUse) : Value → List WrittenPattern
  | .text source => [⟨use, source⟩]
  | _ => []

/-- The pattern in a link of a chain: the word for an absent node is none. -/
def ofLink : Value → List WrittenPattern
  | .text "nil" => []
  | value => ofValue .type value

def ofChain : Value → List WrittenPattern
  | .list links => links.flatMap ofLink
  | _ => []

end WrittenPattern

namespace Predicate

open Outcome Value WrittenPattern

/-! ## The patterns of an entry -/

/-- The tests with patterns, in the order in which they are looked at. -/
def patternKeys : List String :=
  ["node", "parent", "chain", "field", "text", "line", "all", "any", "not"]

mutual

/-- The patterns of an entry and of all entries in it, in the order in which they are met. -/
def patternsIn : Value → List WrittenPattern
  | .mapping entries =>
    patternKeys.flatMap fun key => ((patternsByKey entries).lookup key).getD []
  | _ => []

def patternsByKey : List (String × Value) → List (String × List WrittenPattern)
  | [] => []
  | (key, value) :: rest => (key, patternsUnder key value) :: patternsByKey rest

/-- The patterns in what stands under a key, be it of a test or of a field. -/
def patternsUnder (key : String) (value : Value) : List WrittenPattern :=
  match key with
  | "node" | "parent" => WrittenPattern.ofValue .type value
  | "chain" => WrittenPattern.ofChain value
  | "field" => patternsInField value
  | "text" => WrittenPattern.ofValue .text value
  | "line" => WrittenPattern.ofValue .line value
  | "all" | "any" => patternsInList value
  | "not" | "match" => patternsIn value
  | _ => []

def patternsInField : Value → List WrittenPattern
  | .mapping entries => ((patternsByKey entries).lookup "match").getD []
  | _ => []

def patternsInList : Value → List WrittenPattern
  | .list items => patternsInItems items
  | _ => []

def patternsInItems : List Value → List WrittenPattern
  | [] => []
  | item :: rest => patternsIn item ++ patternsInItems rest

end

/-! ## Entries of the right shape -/

mutual

/-- An entry is as it has to be, whatever its patterns are: a word, or a mapping with a test and
with known keys only. -/
inductive WellShaped : Value → Prop
  | word {word : String} : word ∈ ["always", "catch-all", "no-node"] → WellShaped (.text word)
  | mapping {entries : List (String × Value)} :
      (∀ entry ∈ entries, entry.1 ∈ predicateKeys) →
      (∃ key value, under? key entries = some value ∧ isTest key value = true) →
      (∀ key value, under? key entries = some value → WellShapedPart entries key value) →
      WellShaped (.mapping entries)

/-- What stands under a key of a mapping is as it has to be. -/
inductive WellShapedPart : List (String × Value) → String → Value → Prop
  | pattern {whole : List (String × Value)} {key source : String} :
      key ∈ ["node", "parent", "text", "line"] → WellShapedPart whole key (.text source)
  | chain {whole : List (String × Value)} {links : List Value} : 1 ≤ links.length →
      links.length ≤ 3 → (∀ link ∈ links, link = .null ∨ link.IsText) →
      WellShapedPart whole "chain" (.list links)
  | field {whole : List (String × Value)} {name : String} :
      WellShapedPart whole "field" (.text name)
  | fieldMatch {whole entries : List (String × Value)} {name : Value} :
      under? "name" entries = some name →
      (∀ inner, under? "match" entries = some inner → WellShaped inner) →
      WellShapedPart whole "field" (.mapping entries)
  | query {whole : List (String × Value)} {query capture : Value} :
      under? "capture" whole = some capture → WellShapedPart whole "query" query
  | list {whole : List (String × Value)} {key : String} {items : List Value} :
      key ∈ ["all", "any"] → items ≠ [] → (∀ item ∈ items, WellShaped item) →
      WellShapedPart whole key (.list items)
  | not {whole : List (String × Value)} {value : Value} : WellShaped value →
      WellShapedPart whole "not" value
  | other {whole : List (String × Value)} {key : String} {value : Value} :
      key ∈ ["capture", "text_field", "no_node", "always"] → WellShapedPart whole key value

end

/-! ## Readings and their patterns -/

section Surfaces

variable {α β : Type} {outcome : Outcome α} {patterns others : List WrittenPattern}

/-- A reading comes out as its patterns do: it succeeds if all of them are well formed, and the
first that is not is why it fails, be it as a fault of a predicate or already of a document. -/
def Surfaces (patterns : List WrittenPattern) (outcome : Outcome α) : Prop :=
  match firstBad? patterns with
  | none => ∃ a, outcome = .ok a
  | some bad =>
    outcome = .error (.predicate bad.fault) ∨ outcome = .error (.rules (.predicate bad.fault))

theorem surfaces_ok (a : α) : Surfaces [] (.ok a) := ⟨a, rfl⟩

theorem Surfaces.bind {next : α → Outcome β} (h : Surfaces patterns outcome)
    (hnext : ∀ a, outcome = .ok a → Surfaces others (next a)) :
    Surfaces (patterns ++ others) (outcome >>= next) := by
  unfold Surfaces firstBad? at h ⊢
  rw [List.find?_append]
  cases hfirst : patterns.find? fun pattern => !pattern.compiles with
  | none =>
    rw [hfirst] at h
    obtain ⟨a, rfl⟩ := h
    exact hnext a rfl
  | some bad =>
    rw [hfirst] at h
    rcases h with rfl | rfl
    · exact .inl rfl
    · exact .inr rfl

theorem Surfaces.map {f : α → β} (h : Surfaces patterns outcome) :
    Surfaces patterns (outcome.map f) := by
  have hbind : Surfaces (patterns ++ []) (outcome >>= fun a => .ok (f a)) :=
    h.bind fun a _ => surfaces_ok (f a)
  rw [List.append_nil] at hbind
  cases outcome with
  | ok a => exact hbind
  | error error => exact hbind

theorem Surfaces.inDocument (h : Surfaces patterns outcome) :
    Surfaces patterns (inDocument outcome) := by
  unfold Surfaces at h ⊢
  split at h
  next =>
    obtain ⟨a, rfl⟩ := h
    exact ⟨a, rfl⟩
  next => rcases h with rfl | rfl <;> exact .inr rfl

end Surfaces

/-! ## Reading an entry -/

theorem ofText_surfaces (use : PatternUse) (source : String) :
    Surfaces [⟨use, source⟩] (Pattern.ofValue use (.text source)) := by
  unfold Surfaces Pattern.ofValue
  cases h : Pattern.ofText? source with
  | some pattern => simp [firstBad?, compiles, h]
  | none => simp [firstBad?, compiles, fault, h]

theorem linkOf_surfaces {link : Value} (h : link = .null ∨ link.IsText) :
    Surfaces (ofLink link) (linkOf link) := by
  rcases h with rfl | ⟨source, rfl⟩
  · exact surfaces_ok _
  · by_cases hnil : source = "nil"
    · subst hnil
      exact surfaces_ok _
    · have hlink : ofLink (.text source) = [⟨.type, source⟩] := by
        rw [ofLink]
        · rfl
        · intro htext
          exact hnil (Value.text.inj htext)
      rw [hlink, linkOf]
      · exact (ofText_surfaces .type source).map
      · intro hnull
        cases hnull
      · intro htext
        exact hnil (Value.text.inj htext)

theorem chainOf_surfaces {links : List Value} (hmin : 1 ≤ links.length) (hmax : links.length ≤ 3)
    (h : ∀ link ∈ links, link = .null ∨ link.IsText) :
    Surfaces (ofChain (.list links)) (chainOf (.list links)) := by
  have hlinks : ∀ link ∈ links, Surfaces (ofLink link) (linkOf link) :=
    fun link hlink => linkOf_surfaces (h link hlink)
  match links, hmin, hmax, hlinks with
  | [node], _, _, hlinks =>
    simp only [List.forall_mem_cons] at hlinks
    obtain ⟨hnode, -⟩ := hlinks
    simp only [ofChain, List.flatMap_cons, List.flatMap_nil, chainOf]
    exact hnode.bind fun _ _ => surfaces_ok _
  | [node, parent], _, _, hlinks =>
    simp only [List.forall_mem_cons] at hlinks
    obtain ⟨hnode, hparent, -⟩ := hlinks
    simp only [ofChain, List.flatMap_cons, List.flatMap_nil, chainOf]
    exact hnode.bind fun _ _ => hparent.bind fun _ _ => surfaces_ok _
  | [node, parent, grandparent], _, _, hlinks =>
    simp only [List.forall_mem_cons] at hlinks
    obtain ⟨hnode, hparent, hgrandparent, -⟩ := hlinks
    simp only [ofChain, List.flatMap_cons, List.flatMap_nil, chainOf]
    exact hnode.bind fun _ _ => hparent.bind fun _ _ => hgrandparent.bind fun _ _ => surfaces_ok _

theorem lookup_patternsByKey (entries : List (String × Value)) (key : String) :
    (patternsByKey entries).lookup key = (under? key entries).map (patternsUnder key) := by
  have hmap : patternsByKey entries =
      entries.map fun entry => (entry.1, patternsUnder entry.1 entry.2) := by
    induction entries with
    | nil => rw [patternsByKey, List.map_nil]
    | cons entry rest ih =>
      obtain ⟨key, value⟩ := entry
      rw [patternsByKey, ih, List.map_cons]
  rw [hmap, Entries.lookup_map_value, under?]

theorem inOrder_surfaces {parts : List (String × Outcome (Option Predicate))}
    {patternsAt : String → List WrittenPattern}
    (hfound : ∀ key outcome, parts.lookup key = some outcome → Surfaces (patternsAt key) outcome)
    (hnone : ∀ key, parts.lookup key = none → patternsAt key = []) (keys : List String) :
    Surfaces (keys.flatMap patternsAt) (inOrder parts keys) := by
  induction keys with
  | nil => exact surfaces_ok _
  | cons key rest ih =>
    rw [List.flatMap_cons]
    cases hkey : parts.lookup key with
    | none =>
      rw [inOrder, hkey, hnone key hkey]
      exact ih
    | some outcome =>
      have hbind : inOrder parts (key :: rest) = outcome >>= fun test? =>
          (inOrder parts rest).map fun tests => test?.toList ++ tests := by
        rw [inOrder, hkey]
        cases outcome with
        | error error => rfl
        | ok test? =>
          cases test? with
          | none => cases inOrder parts rest <;> rfl
          | some test => rfl
      rw [hbind]
      exact (hfound key outcome hkey).bind fun _ _ => ih.map

theorem itemsOf_surfaces {items : List Value}
    (h : ∀ item ∈ items, Surfaces (patternsIn item) (ofValue item)) :
    Surfaces (patternsInItems items) (itemsOf items) := by
  induction items with
  | nil =>
    rw [patternsInItems, itemsOf]
    exact surfaces_ok _
  | cons item rest ih =>
    obtain ⟨hitem, hrest⟩ := List.forall_mem_cons.mp h
    have hbind : itemsOf (item :: rest) =
        ofValue item >>= fun test => (itemsOf rest).map (test :: ·) := by
      rw [itemsOf]
      cases ofValue item <;> rfl
    rw [patternsInItems, hbind]
    exact hitem.bind fun _ _ => (ih hrest).map

theorem listOf_surfaces (key : String) {items : List Value} (hne : items ≠ [])
    (h : ∀ item ∈ items, Surfaces (patternsIn item) (ofValue item)) :
    Surfaces (patternsInList (.list items)) (listOf key (.list items)) := by
  cases items with
  | nil => exact absurd rfl hne
  | cons item rest =>
    rw [patternsInList, listOf]
    exact itemsOf_surfaces h

theorem fieldOf_surfaces {entries : List (String × Value)} {name : Value}
    (hname : under? "name" entries = some name)
    (h : ∀ inner, under? "match" entries = some inner →
      Surfaces (patternsIn inner) (ofValue inner)) :
    Surfaces (patternsInField (.mapping entries)) (fieldOf (.mapping entries)) := by
  rw [patternsInField, lookup_patternsByKey, fieldOf, hname]
  simp only [matchOf_eq]
  cases hmatch : under? "match" entries with
  | none => exact surfaces_ok _
  | some inner =>
    have hinner := (h inner hmatch).map (f := fun test => Predicate.fieldIs name test)
    rw [Option.map_some, Option.map_some, Option.getD_some, patternsUnder]
    cases hread : ofValue inner <;> rwa [hread] at hinner

theorem combine_succeeds {value : Value} {tests : List Predicate} {test : Predicate}
    (h : test ∈ tests) : ∃ whole, combine value tests = .ok whole := by
  match tests, h with
  | [single], _ => exact ⟨single, rfl⟩
  | first :: second :: rest, _ => exact ⟨_, rfl⟩

theorem patternsUnder_of_free {key : String} (value : Value)
    (h : key ∈ ["query", "capture", "text_field", "no_node", "always"]) :
    patternsUnder key value = [] := by
  simp only [List.mem_cons, List.not_mem_nil, or_false] at h
  rcases h with rfl | rfl | rfl | rfl | rfl <;> simp [patternsUnder]

/-- The tests without a pattern can be passed over. -/
theorem patternsIn_mapping (entries : List (String × Value)) :
    patternsIn (.mapping entries) =
      order.flatMap fun key => ((under? key entries).map (patternsUnder key)).getD [] := by
  have hfree : ∀ key ∈ ["query", "capture", "text_field", "no_node", "always"],
      ((under? key entries).map (patternsUnder key)).getD [] = [] := by
    intro key hkey
    cases under? key entries with
    | none => rfl
    | some value => exact patternsUnder_of_free value hkey
  simp only [List.forall_mem_cons] at hfree
  obtain ⟨hquery, -, -, hnoNode, halways, -⟩ := hfree
  simp only [patternsIn, lookup_patternsByKey, order, patternKeys, List.flatMap_cons,
    List.flatMap_nil, hquery, hnoNode, halways, List.nil_append]

-- The induction follows the shape of the entry. An inner entry has turned its fault into one of the
-- document already, a pattern has not; both come out of the mapping around them as the same fault.
mutual

theorem ofValue_surfaces {value : Value} (h : WellShaped value) :
    Surfaces (patternsIn value) (ofValue value) := by
  match h with
  | .word hword =>
    simp only [List.mem_cons, List.not_mem_nil, or_false] at hword
    rcases hword with rfl | rfl | rfl <;> simp only [patternsIn, ofValue] <;> exact surfaces_ok _
  | @WellShaped.mapping entries hknown ⟨key, value, hvalue, htest⟩ hparts =>
    have hpart := fun key value hvalue => partOf_surfaces (hparts key value hvalue)
    have horder : Surfaces (patternsIn (.mapping entries))
        (inOrder (partsOf entries entries) order) := by
      rw [patternsIn_mapping]
      apply inOrder_surfaces
      · intro key outcome hlookup
        rw [lookup_partsOf] at hlookup
        obtain ⟨value, hvalue, rfl⟩ := Option.map_eq_some_iff.mp hlookup
        rw [under?, hvalue]
        exact hpart key value hvalue
      · intro key hlookup
        rw [lookup_partsOf] at hlookup
        rw [under?, Option.map_eq_none_iff.mp hlookup]
        rfl
    have hne : entries ≠ [] := List.ne_nil_of_mem (Entries.mem_of_lookup hvalue)
    rw [ofValue_mapping_eq hne hknown, ← List.append_nil (patternsIn (.mapping entries))]
    apply horder.inDocument.bind
    intro tests htests
    obtain ⟨test, hin, -⟩ := exists_test_of_isTest (inDocument_eq_ok.mp htests) hvalue htest
    exact combine_succeeds hin

theorem partOf_surfaces {whole : List (String × Value)} {key : String} {value : Value}
    (h : WellShapedPart whole key value) :
    Surfaces (patternsUnder key value) (partOf whole key value) := by
  match h with
  | .pattern hkey =>
    simp only [List.mem_cons, List.not_mem_nil, or_false] at hkey
    rcases hkey with rfl | rfl | rfl | rfl <;> rw [patternsUnder, partOf] <;>
      exact (ofText_surfaces _ _).map
  | .chain hmin hmax hlinks =>
    rw [patternsUnder, partOf]
    exact (chainOf_surfaces hmin hmax hlinks).map
  | .field =>
    simp only [patternsUnder, partOf, patternsInField, fieldOf]
    exact surfaces_ok _
  | .fieldMatch hname hinner =>
    have hinner := fun inner hmatch => ofValue_surfaces (hinner inner hmatch)
    rw [patternsUnder, partOf]
    exact (fieldOf_surfaces hname hinner).map
  | .query hcapture =>
    rw [patternsUnder_of_free _ (by decide), partOf, queryOf, hcapture]
    exact surfaces_ok _
  | .list hkey hne hitems =>
    have hlist := fun key => listOf_surfaces key hne fun item hitem =>
      ofValue_surfaces (hitems item hitem)
    simp only [List.mem_cons, List.not_mem_nil, or_false] at hkey
    rcases hkey with rfl | rfl
    · rw [patternsUnder, partOf]
      exact (hlist "all").map
    · rw [patternsUnder, partOf]
      exact (hlist "any").map
  | .not hvalue =>
    rw [patternsUnder, partOf]
    exact (ofValue_surfaces hvalue).map
  | .other hkey =>
    rw [patternsUnder_of_free _ (List.mem_cons_of_mem _ hkey)]
    simp only [List.mem_cons, List.not_mem_nil, or_false] at hkey
    rcases hkey with rfl | rfl | rfl | rfl <;> simp [partOf, surfaces_ok]

end

/-! ## What is wrong with an entry -/

end Predicate

end TreeRules
