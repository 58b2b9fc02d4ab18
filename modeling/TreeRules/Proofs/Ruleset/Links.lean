import Mathlib.Logic.Function.Iterate
import TreeRules.Proofs.Ruleset.Shape
import TreeRules.Proofs.Value.Entries

/-! # Following the links of rulesets

From a ruleset a path leads to the one that it extends, from there to the next, and so on; as a
sequence it never ends. The rulesets that are passed on the way are a route as long as they are
there, are mappings and come for the first time. There are no more of them than rulesets, so a last
one is reached, and what stands behind it decides: an end of the path, a name that was passed
before, one that is missing, or one of something else than a mapping.
-/
namespace TreeRules.Ruleset

variable {rulesets route : List (String × Value)} {name : String}

/-! ## The path -/

/-- What a ruleset extends, which is nothing if it does not say so. -/
def extended : Value → Value
  | .mapping entries => (Value.under? "extends" entries).getD .null
  | _ => .null

/-- Where the path goes on from a link. -/
def follow (rulesets : List (String × Value)) : Value → Value
  | .text name => ((Value.under? name rulesets).map extended).getD .null
  | _ => .null

/-- The links of the path that starts with a name. -/
def path (rulesets : List (String × Value)) (name : String) (index : Nat) : Value :=
  (follow rulesets)^[index] (.text name)

theorem path_succ (index : Nat) :
    path rulesets name (index + 1) = follow rulesets (path rulesets name index) :=
  Function.iterate_succ_apply' _ _ _

theorem path_succ_of_under? {index : Nat} {next : String} {ruleset : Value}
    (hnext : path rulesets name index = .text next)
    (hruleset : Value.under? next rulesets = some ruleset) :
    path rulesets name (index + 1) = extended ruleset := by
  rw [path_succ, hnext, follow, hruleset, Option.map_some, Option.getD_some]

/-- Every ruleset extends nothing or gives the name of what it extends. -/
def Linked (rulesets : List (String × Value)) : Prop :=
  ∀ item ∈ rulesets, extended item.2 = .null ∨ ∃ next, extended item.2 = .text next

theorem Linked.path_cases (h : Linked rulesets) (name : String) (index : Nat) :
    path rulesets name index = .null ∨ ∃ next, path rulesets name index = .text next := by
  cases index with
  | zero => exact .inr ⟨name, rfl⟩
  | succ index =>
    rw [path_succ]
    cases path rulesets name index with
    | text next =>
      cases hruleset : Value.under? next rulesets with
      | none => simp [follow, hruleset]
      | some ruleset => simpa [follow, hruleset] using h _ (Entries.mem_of_lookup hruleset)
    | _ => exact .inl rfl

/-! ## The route -/

/-- Rulesets in the order of the path, from its start on: each is there and is a mapping, and no
name comes twice. -/
structure Route (rulesets : List (String × Value)) (name : String)
    (route : List (String × Value)) : Prop where
  visits : ∀ index item, route[index]? = some item →
    path rulesets name index = .text item.1 ∧ Value.under? item.1 rulesets = some item.2 ∧
      ∃ entries, item.2 = .mapping entries
  distinct : (namesOf route).Nodup

theorem route_nil : Route rulesets name [] := ⟨nofun, List.nodup_nil⟩

theorem Route.snoc (h : Route rulesets name route) {next : String}
    {entries : List (String × Value)} (hnext : path rulesets name route.length = .text next)
    (hnew : next ∉ namesOf route)
    (hruleset : Value.under? next rulesets = some (.mapping entries)) :
    Route rulesets name (route ++ [(next, .mapping entries)]) := by
  constructor
  · intro index item hitem
    rcases Nat.lt_or_ge index route.length with hlt | hge
    · rw [List.getElem?_append_left hlt] at hitem
      exact h.visits index item hitem
    · rw [List.getElem?_append_right hge, List.getElem?_singleton] at hitem
      split at hitem
      next hindex =>
        obtain rfl : index = route.length := by omega
        cases hitem
        exact ⟨hnext, hruleset, entries, rfl⟩
      next => cases hitem
  · rw [namesOf, List.map_append, List.nodup_append]
    refine ⟨h.distinct, List.nodup_singleton _, ?_⟩
    intro key hkey other hother
    obtain rfl := List.mem_singleton.mp hother
    exact ne_of_mem_of_not_mem hkey hnew

/-- A route is no longer than there are rulesets. -/
theorem Route.length_le (h : Route rulesets name route) : route.length ≤ rulesets.length := by
  have hsubset : namesOf route ⊆ namesOf rulesets := by
    intro key hkey
    obtain ⟨item, hitem, rfl⟩ := List.mem_map.mp hkey
    obtain ⟨index, hindex⟩ := List.getElem?_of_mem hitem
    obtain ⟨-, hruleset, -⟩ := h.visits index item hindex
    exact List.mem_map_of_mem (Entries.mem_of_lookup hruleset)
  have hlength := (List.subperm_of_subset h.distinct hsubset).length_le
  simpa [namesOf] using hlength

/-- Two routes agree as far as both go. -/
theorem Route.eq_take {other : List (String × Value)} (h : Route rulesets name route)
    (hother : Route rulesets name other) (hle : route.length ≤ other.length) :
    route = other.take route.length := by
  refine List.ext_getElem (by simp [hle]) ?_
  intro index hleft hright
  have hlt : index < other.length := hleft.trans_le hle
  obtain ⟨hpath, hruleset, -⟩ := h.visits index _ (List.getElem?_eq_getElem hleft)
  obtain ⟨hpath', hruleset', -⟩ := hother.visits index _ (List.getElem?_eq_getElem hlt)
  have hname : route[index].1 = other[index].1 := by
    rw [hpath] at hpath'
    exact Value.text.inj hpath'
  have hvalue : route[index].2 = other[index].2 := by
    rw [hname, hruleset'] at hruleset
    exact (Option.some.inj hruleset).symm
  rw [List.getElem_take]
  exact Prod.ext hname hvalue

/-- Where another route goes further, the next ruleset is there and is new. -/
theorem Route.next_of_lt {other : List (String × Value)} (h : Route rulesets name route)
    (hother : Route rulesets name other) (hlt : route.length < other.length) :
    ∃ next entries, path rulesets name route.length = .text next ∧ next ∉ namesOf route ∧
      Value.under? next rulesets = some (.mapping entries) := by
  obtain ⟨hpath, hruleset, entries, hentries⟩ :=
    hother.visits _ _ (List.getElem?_eq_getElem hlt)
  refine ⟨_, entries, hpath, ?_, hentries ▸ hruleset⟩
  have hsplit : other = route ++ other[route.length] :: other.drop (route.length + 1) := by
    rw [← List.drop_eq_getElem_cons hlt]
    calc other = other.take route.length ++ other.drop route.length :=
          (List.take_append_drop _ _).symm
      _ = route ++ other.drop route.length := by rw [← h.eq_take hother hlt.le]
  have hdistinct := hother.distinct
  rw [hsplit, namesOf, List.map_append, List.map_cons, List.nodup_middle,
    List.nodup_cons] at hdistinct
  intro hmem
  exact hdistinct.1 (List.mem_append_left _ hmem)

/-! ## The verdict -/

/-- What comes of a path, given the route that it takes as far as it can. -/
inductive Ends (rulesets : List (String × Value)) (name : String)
    (route : List (String × Value)) : Outcome (List (String × Value)) → Prop
  | reached : path rulesets name route.length = .null →
      Ends rulesets name route (.ok route.reverse)
  | circular {next : String} : path rulesets name route.length = .text next →
      next ∈ namesOf route →
      Ends rulesets name route (.error (.rules (.circular name (namesOf route ++ [next]))))
  | missing {next : String} {last : String × Value} :
      path rulesets name route.length = .text next → Value.under? next rulesets = none →
      route.getLast? = some last →
      Ends rulesets name route (.error (.rules (.missingBase (.text next) last.1)))
  | notMapping {next : String} {ruleset : Value} :
      path rulesets name route.length = .text next → next ∉ namesOf route →
      Value.under? next rulesets = some ruleset → (∀ entries, ruleset ≠ .mapping entries) →
      Ends rulesets name route (.error (.rules (.notRuleset next)))

theorem Ends.not_lt {outcome : Outcome (List (String × Value))} {other : List (String × Value)}
    (h : Ends rulesets name route outcome) (hroute : Route rulesets name route)
    (hother : Route rulesets name other) : ¬route.length < other.length := by
  intro hlt
  obtain ⟨next, entries, hnext, hnew, hruleset⟩ := hroute.next_of_lt hother hlt
  cases h with
  | reached hnull =>
    rw [hnull] at hnext
    cases hnext
  | circular htext hvisited =>
    rw [htext] at hnext
    cases hnext
    exact hnew hvisited
  | missing htext hnone _ =>
    rw [htext] at hnext
    cases hnext
    rw [hnone] at hruleset
    cases hruleset
  | notMapping htext _ hsome hother =>
    rw [htext] at hnext
    cases hnext
    rw [hsome] at hruleset
    cases hruleset
    exact hother entries rfl

theorem not_mem_of_under?_eq_none (h : Route rulesets name route) {next : String}
    (hnone : Value.under? next rulesets = none) : next ∉ namesOf route := by
  intro hmem
  obtain ⟨item, hitem, rfl⟩ := List.mem_map.mp hmem
  obtain ⟨index, hindex⟩ := List.getElem?_of_mem hitem
  obtain ⟨-, hruleset, -⟩ := h.visits index item hindex
  rw [hnone] at hruleset
  cases hruleset

theorem Ends.unique {outcome other : Outcome (List (String × Value))}
    (hroute : Route rulesets name route) (h : Ends rulesets name route outcome)
    (hother : Ends rulesets name route other) : outcome = other := by
  -- Two ends of one route agree on the next link: it is missing, taken, or there for both.
  cases h <;> cases hother <;> grind [not_mem_of_under?_eq_none]

/-- A path has one verdict. -/
theorem verdict_unique {other : List (String × Value)}
    {outcome outcome' : Outcome (List (String × Value))} (hroute : Route rulesets name route)
    (hother : Route rulesets name other) (h : Ends rulesets name route outcome)
    (h' : Ends rulesets name other outcome') : outcome = outcome' := by
  have hle := Nat.not_lt.mp (h.not_lt hroute hother)
  have hge := Nat.not_lt.mp (h'.not_lt hother hroute)
  have hsame : route = other := by
    rw [hroute.eq_take hother hge, Nat.le_antisymm hge hle, List.take_length]
  subst hsame
  exact h.unique hroute h'

/-! ## The search -/

/-- One step of the search: a verdict, or a ruleset that is new and is taken away from those that
are left. -/
theorem ancestry_step {visited left : List (String × Value)} {next : String}
    (hleft : LeftOf rulesets visited left)
    (hnext : path rulesets name visited.reverse.length = .text next)
    (hstart : visited = [] → Value.under? next rulesets ≠ none) :
    Ends rulesets name visited.reverse (ancestry name visited left (.text next)) ∨
    ∃ entries, next ∉ namesOf visited ∧ Value.under? next rulesets = some (.mapping entries) ∧
      (without next left).length < left.length ∧
      ancestry name visited left (.text next) =
        ancestry name ((next, .mapping entries) :: visited) (without next left)
          (extended (.mapping entries)) := by
  rw [ancestry]
  split
  next hvisited =>
    have hmem : next ∈ namesOf visited.reverse := by
      simpa [namesOf] using hvisited
    have hnames : (visited.map Prod.fst).reverse = namesOf visited.reverse :=
      List.map_reverse.symm
    rw [hnames]
    exact .inl (.circular hnext hmem)
  next hvisited =>
    have hnew : next ∉ namesOf visited := fun hmem => hvisited (any_name_eq.mpr hmem)
    have hunder := under?_eq_find? next rulesets
    rw [← hleft next hnew] at hunder
    split
    next hnone =>
      rw [hnone, Option.map_none] at hunder
      cases visited with
      | nil => exact absurd hunder (hstart rfl)
      | cons last rest => exact .inl (.missing hnext hunder (by simp))
    next key entries hfind =>
      rw [hfind, Option.map_some] at hunder
      exact .inr ⟨entries, hnew, hunder, length_without_lt hfind, rfl⟩
    next found hother hfind =>
      rw [hfind, Option.map_some] at hunder
      refine .inl (.notMapping hnext ?_ hunder ?_)
      · simpa [namesOf] using hnew
      · intro entries hentries
        exact hother found.1 entries (Prod.ext rfl hentries)

-- Every step takes a ruleset away from those that are left. What was visited, turned round, is a
-- route, and the link that is looked at stands behind it.
theorem ancestry_ends (hlinked : Linked rulesets) (hname : Value.under? name rulesets ≠ none)
    {visited left : List (String × Value)} (hleft : LeftOf rulesets visited left)
    (hroute : Route rulesets name visited.reverse) :
    ∃ route, Route rulesets name route ∧ Ends rulesets name route
      (ancestry name visited left (path rulesets name visited.reverse.length)) := by
  induction hn : left.length using Nat.strongRecOn generalizing visited left with
  | ind n ih =>
    obtain hnull | ⟨next, hnext⟩ := hlinked.path_cases name visited.reverse.length
    · refine ⟨visited.reverse, hroute, ?_⟩
      have hends := Ends.reached hnull
      rwa [List.reverse_reverse, ← ancestry.eq_1 name visited left, ← hnull] at hends
    · have hstart : visited = [] → Value.under? next rulesets ≠ none := by
        rintro rfl
        cases hnext
        exact hname
      rw [hnext]
      obtain hends | ⟨entries, hnew, hruleset, hless, hstep⟩ := ancestry_step hleft hnext hstart
      · exact ⟨visited.reverse, hroute, hends⟩
      · have hlonger : Route rulesets name ((next, .mapping entries) :: visited).reverse := by
          rw [List.reverse_cons]
          exact hroute.snoc hnext (by simpa [namesOf] using hnew) hruleset
        have hrest := ih _ (hn ▸ hless) (hleft.visit next (.mapping entries)) hlonger rfl
        rwa [List.reverse_cons, List.length_append, List.length_singleton,
          path_succ_of_under? hnext hruleset, ← hstep] at hrest

/-! ## What the search finds -/

/-- What a lineage looks like from its base to the ruleset that was asked for: each ruleset extends
the one before it, and the base nothing. -/
structure Descends (name : String) (result : List (String × Value)) : Prop where
  last : result.getLast?.map Prod.fst = some name
  distinct : (namesOf result).Nodup
  base : ∀ first ∈ result.head?, extended first.2 = .null
  links : result.IsChain fun base derived => extended derived.2 = .text base.1

theorem Route.extended_eq (h : Route rulesets name route) {index : Nat} {item : String × Value}
    (hitem : route[index]? = some item) : extended item.2 = path rulesets name (index + 1) := by
  obtain ⟨hpath, hruleset, -⟩ := h.visits index item hitem
  exact (path_succ_of_under? hpath hruleset).symm

theorem Route.descends (h : Route rulesets name route)
    (hend : path rulesets name route.length = .null) : Descends name route.reverse := by
  constructor
  · rw [List.getLast?_reverse]
    cases route with
    | nil => cases hend
    | cons first rest =>
      obtain ⟨hpath, -⟩ := h.visits 0 first rfl
      cases hpath
      rfl
  · rw [namesOf, List.map_reverse, List.nodup_reverse]
    exact h.distinct
  · intro last hlast
    rw [List.head?_reverse, List.getLast?_eq_getElem?, Option.mem_def] at hlast
    have hpos : 0 < route.length := by
      rw [List.length_pos_iff]
      rintro rfl
      cases hend
    rw [h.extended_eq hlast, Nat.sub_add_cancel hpos, hend]
  · rw [List.isChain_reverse, List.isChain_iff_getElem]
    intro index hindex
    rw [h.extended_eq (List.getElem?_eq_getElem (Nat.lt_of_succ_lt hindex))]
    exact (h.visits (index + 1) _ (List.getElem?_eq_getElem hindex)).1

theorem ancestry_eq_iff (hlinked : Linked rulesets) (hname : name ∈ namesOf rulesets)
    {outcome : Outcome (List (String × Value))} :
    ancestry name [] rulesets (.text name) = outcome ↔
      ∃ route, Route rulesets name route ∧ Ends rulesets name route outcome := by
  have hunder : Value.under? name rulesets ≠ none := by
    intro hnone
    obtain ⟨item, hitem, rfl⟩ := List.mem_map.mp hname
    have hdiffers := List.lookup_eq_none_iff.mp hnone item hitem
    simp at hdiffers
  obtain ⟨route, hroute, hends⟩ := ancestry_ends hlinked hunder leftOf_start route_nil
  constructor
  · rintro rfl
    exact ⟨route, hroute, hends⟩
  · rintro ⟨other, hother, hends'⟩
    exact verdict_unique hroute hother hends hends'

/-- Reading a document never looks for the last of no rulesets. And where every link is a name or
nothing, the search for the lineage of a ruleset that is there comes to an end behind a route that
is no longer than there are rulesets: with the route, turned round, if the path ends there, and else
with the fault of what stands behind it. -/
theorem ancestry_verdict :
    (∀ document name, LanguageRules.ofDocument document name ≠ .error .outOfRange) ∧
    ∀ {rulesets name}, Linked rulesets → name ∈ namesOf rulesets →
      (∀ outcome, ancestry name [] rulesets (.text name) = outcome ↔
        ∃ route, Route rulesets name route ∧ Ends rulesets name route outcome) ∧
      (∀ route, Route rulesets name route → route.length ≤ rulesets.length) ∧
      ∀ result, ancestry name [] rulesets (.text name) = .ok result → Descends name result := by
  constructor
  · intro document name hrange
    rcases (ofDocument_fits document name).of_error _ hrange with hfault | ⟨haccess, -⟩
    · cases hfault
    · cases haccess
  · intro rulesets name hlinked hname
    refine ⟨fun _ => ancestry_eq_iff hlinked hname, fun _ hroute => hroute.length_le, ?_⟩
    intro result hresult
    obtain ⟨route, hroute, hends⟩ := (ancestry_eq_iff hlinked hname).mp hresult
    cases hends with
    | reached hend => exact hroute.descends hend

/-! ### A way into a circle -/

def linkTo (next : String) : Value := .mapping [("extends", .text next)]

/-- A ruleset that extends one of two that extend each other. -/
def circleRulesets : List (String × Value) :=
  [("outer", linkTo "left"), ("left", linkTo "right"), ("right", linkTo "left")]

theorem route_circle : Route circleRulesets "outer" circleRulesets :=
  ((route_nil.snoc rfl (by simp) rfl).snoc rfl (by simp) rfl).snoc rfl (by simp) rfl

theorem ancestry_verdict_circle : Linked circleRulesets ∧ "outer" ∈ namesOf circleRulesets ∧
    ancestry "outer" [] circleRulesets (.text "outer") =
      .error (.rules (.circular "outer" ["outer", "left", "right", "left"])) := by
  have hlinked : Linked circleRulesets := by
    simp [Linked, circleRulesets, linkTo, extended, Value.under?]
  have hname : "outer" ∈ namesOf circleRulesets := by simp [circleRulesets]
  obtain ⟨hverdict, -⟩ := ancestry_verdict.2 hlinked hname
  have hvisited : "left" ∈ namesOf circleRulesets := by simp [circleRulesets]
  exact ⟨hlinked, hname, (hverdict _).mpr ⟨circleRulesets, route_circle, .circular rfl hvisited⟩⟩

end TreeRules.Ruleset
