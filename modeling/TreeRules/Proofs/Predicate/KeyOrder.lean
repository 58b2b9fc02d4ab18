import Mathlib
import TreeRules.Proofs.Predicate.Recollection
import TreeRules.Proofs.Value.Reordering

/-! # The keys of a predicate

The tests of a mapping are looked up by their keys, so a mapping is read as the same predicate in
whatever order its entries are given, and so are the mappings in it. Its tests have all to hold, and
each of them is what the mapping with this test alone is read as. A test is a key with its value;
two keys are no tests and belong to one: the capture to a query, and the field to a text.
-/
namespace TreeRules

/-! ## Readings that follow each other -/

namespace Outcome

variable {α β γ δ : Type} {same : α → β → Prop} {outcome : Outcome α} {other : Outcome β}

/-- Where one reading succeeds, the other one does as well, with the same result. -/
def Follows (same : α → β → Prop) (outcome : Outcome α) (other : Outcome β) : Prop :=
  ∀ a, outcome = .ok a → ∃ b, other = .ok b ∧ same a b

theorem follows_error (error : Error) : Follows same (.error error) other := nofun

theorem follows_ok {a : α} {b : β} (h : same a b) : Follows same (.ok a) (.ok b) := by
  rintro _ ⟨⟩
  exact ⟨b, rfl, h⟩

theorem Follows.map {image : γ → δ → Prop} {f : α → γ} {g : β → δ}
    (h : Follows same outcome other) (himage : ∀ a b, same a b → image (f a) (g b)) :
    Follows image (outcome.map f) (other.map g) := by
  intro c hc
  obtain ⟨a, ha, rfl⟩ := map_eq_ok.mp hc
  obtain ⟨b, hb, hsame⟩ := h a ha
  exact ⟨g b, map_eq_ok.mpr ⟨b, hb, rfl⟩, himage a b hsame⟩

end Outcome

open Outcome Value

/-! ## Patterns and chains -/

section Flat

variable {value other : Value}

theorem Pattern.equal_self (pattern : Pattern) : pattern.equal pattern = true := beq_self_eq_true _

theorem Link.equal_self (link : Link) : link.equal link = true := by
  cases link with
  | kind pattern => exact pattern.equal_self
  | _ => rfl

theorem Pattern.isKey_of_ofValue {use : PatternUse} {pattern : Pattern}
    (h : Pattern.ofValue use value = .ok pattern) : value.isKey = true := by
  cases value with
  | list _ => cases h
  | mapping _ => cases h
  | _ => rfl

theorem Pattern.ofValue_follows (use : PatternUse) (h : Reordered value other) :
    Follows (fun x y => x.equal y = true) (Pattern.ofValue use value)
      (Pattern.ofValue use other) := by
  intro pattern hpattern
  rw [h.eq_of_isKey (Pattern.isKey_of_ofValue hpattern)]
  exact ⟨pattern, hpattern, pattern.equal_self⟩

end Flat

namespace Predicate

variable {value other : Value} {entries others : List (String × Value)} {test : Predicate}

theorem isKey_of_linkOf {link : Link} (h : linkOf value = .ok link) : value.isKey = true := by
  unfold linkOf at h
  split at h
  · rfl
  · rfl
  · obtain ⟨pattern, hpattern, -⟩ := map_eq_ok.mp h
    exact Pattern.isKey_of_ofValue hpattern

theorem chainOf_inv (h : chainOf value = .ok test) :
    ∃ items node parent grandparent, value = .list items ∧
      (∀ item ∈ items, item.isKey = true) ∧ test = .chain node parent grandparent := by
  unfold chainOf at h
  split at h
  case h_4 => cases h
  all_goals simp only [bind_eq_ok, pure_eq_ok] at h
  case h_1 =>
    obtain ⟨node, hnode, rfl⟩ := h
    refine ⟨_, node, _, _, rfl, ?_, rfl⟩
    simp [isKey_of_linkOf hnode]
  case h_2 =>
    obtain ⟨node, hnode, parent, hparent, rfl⟩ := h
    refine ⟨_, node, parent, _, rfl, ?_, rfl⟩
    simp [isKey_of_linkOf hnode, isKey_of_linkOf hparent]
  case h_3 =>
    obtain ⟨node, hnode, parent, hparent, grandparent, hgrandparent, rfl⟩ := h
    refine ⟨_, node, parent, grandparent, rfl, ?_, rfl⟩
    simp [isKey_of_linkOf hnode, isKey_of_linkOf hparent, isKey_of_linkOf hgrandparent]

/-- Two predicates ask the same in the same words. -/
abbrev Same (x y : Predicate) : Prop := x.equal y = true

theorem chainOf_follows (h : Reordered value other) :
    Follows Same (chainOf value) (chainOf other) := by
  intro test htest
  obtain ⟨items, node, parent, grandparent, rfl, hkeys, rfl⟩ := chainOf_inv htest
  rw [h.eq_of_items hkeys]
  refine ⟨_, htest, ?_⟩
  simp [Same, equal, Link.equal_self]

/-! ## Tests under their keys -/

theorem equalAll_iff {tests twins : List Predicate} :
    equalAll tests twins = true ↔ List.Forall₂ Same tests twins := by
  induction tests generalizing twins with
  | nil => cases twins <;> simp [equalAll]
  | cons test rest ih => cases twins <;> simp [equalAll, ih]

-- A value is read as an entry, as a field or as a list, by the key that it stands under. Entries
-- stand one level below fields and lists, so that the induction over values has to carry all three.
/-- What every reader makes of two values is the same. -/
structure Alike (value other : Value) : Prop where
  entry : Follows Same (ofValue value) (ofValue other)
  field : Follows Same (fieldOf value) (fieldOf other)
  list : ∀ key, Follows (List.Forall₂ Same) (listOf key value) (listOf key other)

section Parts

variable {whole twin : List (String × Value)}

/-- Under each key stand equal values, or none. -/
def Matching (whole twin : List (String × Value)) : Prop :=
  ∀ key, Option.Rel (fun x y => x.equal y = true) (under? key whole) (under? key twin)

theorem queryOf_follows (hwhole : Matching whole twin) (hquery : value.equal other = true) :
    Follows Same (queryOf whole value) (queryOf twin other) := by
  have hcapture := hwhole "capture"
  unfold queryOf
  generalize under? "capture" whole = capture at hcapture ⊢
  generalize under? "capture" twin = capture' at hcapture ⊢
  cases hcapture with
  | none => exact follows_error _
  | some hsame =>
    apply follows_ok
    simp [Same, equal, hquery, hsame]

theorem Matching.textField (hwhole : Matching whole twin) :
    ((under? "text_field" whole).getD .null).equal
      ((under? "text_field" twin).getD .null) = true := by
  have hfield := hwhole "text_field"
  generalize under? "text_field" whole = field at hfield ⊢
  generalize under? "text_field" twin = field' at hfield ⊢
  cases hfield with
  | none => rfl
  | some hsame => exact hsame

theorem follows_flag {flag flag' : Bool} (h : flag' = flag) (hsame : Same test test) :
    Follows (Option.Rel Same) (.ok (if flag then some test else none))
      (.ok (if flag' then some test else none)) := by
  subst h
  cases flag' with
  | true => exact follows_ok (.some hsame)
  | false => exact follows_ok .none

theorem partOf_follows (hwhole : Matching whole twin) (hproper : value.Proper)
    (hreordered : Reordered value other) (halike : Alike value other) (key : String) :
    Follows (Option.Rel Same) (partOf whole key value) (partOf twin key other) := by
  have hpattern := fun use => Pattern.ofValue_follows use hreordered
  have hequal := hreordered.equal hproper
  -- One case for each key, in the order of the reader.
  unfold partOf
  split
  case h_1 => exact (hpattern .type).map fun x y hsame => .some hsame
  case h_2 => exact (hpattern .type).map fun x y hsame => .some hsame
  case h_3 => exact (chainOf_follows hreordered).map fun x y hsame => .some hsame
  case h_4 => exact halike.field.map fun x y hsame => .some hsame
  case h_5 => exact (queryOf_follows hwhole hequal).map fun x y hsame => .some hsame
  case h_6 =>
    refine (hpattern .text).map fun x y hsame => .some ?_
    simp only [Same, equal, hsame, Bool.true_and]
    exact hwhole.textField
  case h_7 => exact (hpattern .line).map fun x y hsame => .some hsame
  case h_8 => exact follows_flag hreordered.truthy_eq rfl
  case h_9 => exact follows_flag hreordered.truthy_eq rfl
  case h_10 => exact (halike.list "all").map fun x y hsame => .some (equalAll_iff.mpr hsame)
  case h_11 => exact (halike.list "any").map fun x y hsame => .some (equalAll_iff.mpr hsame)
  case h_12 => exact halike.entry.map fun x y hsame => .some hsame
  case h_13 => exact follows_ok .none

end Parts

theorem inOrder_follows {parts twins : List (String × Outcome (Option Predicate))}
    (h : ∀ key, Option.Rel (Follows (Option.Rel Same)) (parts.lookup key) (twins.lookup key))
    (keys : List String) :
    Follows (List.Forall₂ Same) (inOrder parts keys) (inOrder twins keys) := by
  induction keys with
  | nil => exact follows_ok .nil
  | cons key rest ih =>
    have hkey := h key
    unfold inOrder
    generalize parts.lookup key = part at hkey ⊢
    generalize twins.lookup key = part' at hkey ⊢
    cases hkey with
    | none => exact ih
    | @some part part' hpart =>
      cases part with
      | error error => exact follows_error error
      | ok test? =>
        obtain ⟨twin?, rfl, hsame⟩ := hpart test? rfl
        cases hsame with
        | none => exact ih
        | some hsame => exact ih.map fun tests twins htests => .cons hsame htests

theorem combine_follows {tests twins : List Predicate} (h : List.Forall₂ Same tests twins) :
    Follows Same (combine value tests) (combine other twins) := by
  cases h with
  | nil => exact follows_error _
  | cons hfirst hrest =>
    cases hrest with
    | nil => exact follows_ok hfirst
    | cons hsecond hrest => exact follows_ok (equalAll_iff.mpr (.cons hfirst (.cons hsecond hrest)))

theorem inDocument_eq_ok {α : Type} {outcome : Outcome α} {a : α} :
    inDocument outcome = .ok a ↔ outcome = .ok a := by
  unfold inDocument
  split <;> simp

theorem ofValue_mapping_eq (hne : entries ≠ [])
    (hknown : ∀ entry ∈ entries, entry.1 ∈ predicateKeys) :
    ofValue (.mapping entries) =
      inDocument (inOrder (partsOf entries entries) order) >>= combine (.mapping entries) := by
  have hempty : entries.isEmpty = false := by simpa using hne
  rw [ofValue, unknownKeys_eq_nil_iff.mpr hknown, hempty]
  cases inDocument (inOrder (partsOf entries entries) order) <;> rfl

/-- A mapping is read by the tests that it has, all of whose keys have to be known. -/
theorem ofValue_mapping_eq_ok_iff : ofValue (.mapping entries) = .ok test ↔
    (∀ entry ∈ entries, entry.1 ∈ predicateKeys) ∧
      ∃ tests, inOrder (partsOf entries entries) order = .ok tests ∧
        combine (.mapping entries) tests = .ok test := by
  by_cases hne : entries = []
  · subst hne
    have hnone : inOrder (partsOf [] []) order = .ok [] := by
      rw [partsOf]
      exact inOrder_eq_nil fun _ _ => rfl
    simp [ofValue, hnone, combine]
  by_cases hknown : ∀ entry ∈ entries, entry.1 ∈ predicateKeys
  · rw [ofValue_mapping_eq hne hknown, bind_eq_ok]
    simp only [inDocument_eq_ok]
    exact (and_iff_right hknown).symm
  · have hunknown : unknownKeys entries ≠ [] := mt unknownKeys_eq_nil_iff.mp hknown
    have hfails : ofValue (.mapping entries) ≠ .ok test := by simp [ofValue, hne, hunknown]
    exact iff_of_false hfails fun h => hknown h.1

theorem matchOf_eq : matchOf entries = (under? "match" entries).map ofValue := by
  induction entries with
  | nil => rw [matchOf]; rfl
  | cons entry rest ih =>
    obtain ⟨key, value⟩ := entry
    rw [matchOf, under?, List.lookup_cons]
    by_cases hkey : key = "match"
    · simp [hkey]
    · have hdiffers : ("match" == key) = false := beq_eq_false_iff_ne.mpr (Ne.symm hkey)
      rw [if_neg hkey, ih, under?, hdiffers]

section Mappings

variable (hkeys : (entries.map Prod.fst).Nodup) (hvalues : ∀ entry ∈ entries, entry.2.Proper)
  (h : Reordered (.mapping entries) (.mapping others))
  (halike : ∀ entry ∈ entries, ∀ other, Reordered entry.2 other → Alike entry.2 other)

include hkeys h

theorem map_under?_reordered {α β : Type} {image : α → β → Prop} {f : Value → α} {g : Value → β}
    {key : String}
    (himage : ∀ value other, (key, value) ∈ entries → Reordered value other →
      image (f value) (g other)) :
    Option.Rel image ((under? key entries).map f) ((under? key others).map g) := by
  have hrel := h.under? hkeys key
  have hmem : ∀ value, under? key entries = some value → (key, value) ∈ entries :=
    fun value => Entries.mem_of_lookup
  generalize under? key entries = found at hrel hmem ⊢
  generalize under? key others = found' at hrel ⊢
  cases hrel with
  | none => exact .none
  | some hsame => exact .some (himage _ _ (hmem _ rfl) hsame)

include hvalues

theorem matching_of_reordered : Matching entries others := by
  intro key
  have hrel : Option.Rel (fun x y => Value.equal x y = true) ((under? key entries).map id)
      ((under? key others).map id) := by
    apply map_under?_reordered hkeys h
    intro value other hvalue hsame
    exact hsame.equal (hvalues _ hvalue)
  simpa only [Option.map_id_fun, id_eq] using hrel

include halike

theorem partsOf_follows (key : String) :
    Option.Rel (Follows (Option.Rel Same)) ((partsOf entries entries).lookup key)
      ((partsOf others others).lookup key) := by
  have hwhole := matching_of_reordered hkeys hvalues h
  rw [lookup_partsOf, lookup_partsOf]
  apply map_under?_reordered hkeys h
  intro value other hvalue hsame
  exact partOf_follows hwhole (hvalues _ hvalue) hsame (halike _ hvalue other hsame) key

theorem ofValue_mapping_follows :
    Follows Same (ofValue (.mapping entries)) (ofValue (.mapping others)) := by
  intro test htest
  obtain ⟨hknown, tests, htests, hcombine⟩ := ofValue_mapping_eq_ok_iff.mp htest
  have hparts := partsOf_follows hkeys hvalues h halike
  obtain ⟨twins, htwins, hsame⟩ := inOrder_follows hparts order tests htests
  obtain ⟨twin, htwin, hequal⟩ := combine_follows hsame test hcombine
  refine ⟨twin, ofValue_mapping_eq_ok_iff.mpr ⟨?_, twins, htwins, htwin⟩, hequal⟩
  rw [← List.forall_mem_map (f := Prod.fst) (P := (· ∈ predicateKeys))] at hknown ⊢
  intro key hkey
  exact hknown key (h.keys_perm.mem_iff.mpr hkey)

theorem fieldOf_mapping_follows :
    Follows Same (fieldOf (.mapping entries)) (fieldOf (.mapping others)) := by
  have hname := matching_of_reordered hkeys hvalues h "name"
  have hmatch : Option.Rel (Follows Same) (matchOf entries) (matchOf others) := by
    rw [matchOf_eq, matchOf_eq]
    apply map_under?_reordered hkeys h
    intro value other hvalue hsame
    exact (halike _ hvalue other hsame).entry
  rw [fieldOf, fieldOf]
  generalize under? "name" entries = name at hname ⊢
  generalize under? "name" others = name' at hname ⊢
  generalize matchOf entries = inner at hmatch ⊢
  generalize matchOf others = inner' at hmatch ⊢
  cases hname with
  | none => exact follows_error _
  | some hname =>
    cases hmatch with
    | none =>
      apply follows_ok
      simp [Same, equal, hname]
    | @some inner inner' hinner =>
      cases inner with
      | error error => exact follows_error error
      | ok test =>
        obtain ⟨twin, rfl, hsame⟩ := hinner test rfl
        apply follows_ok
        simp [Same, equal, hname, hsame]

end Mappings

theorem itemsOf_follows {items twins : List Value}
    (h : List.Forall₂ (fun item twin => Follows Same (ofValue item) (ofValue twin)) items twins) :
    Follows (List.Forall₂ Same) (itemsOf items) (itemsOf twins) := by
  induction h with
  | nil =>
    rw [itemsOf]
    exact follows_ok .nil
  | @cons item twin items twins hitem _ ih =>
    rw [itemsOf, itemsOf]
    cases hfirst : ofValue item with
    | error error => exact follows_error error
    | ok test =>
      obtain ⟨test', htest', hsame⟩ := hitem test hfirst
      rw [htest']
      exact ih.map fun tests twins htests => .cons hsame htests

theorem ofWord_follows (word : String) : Follows Same (ofWord word) (ofWord word) := by
  unfold ofWord
  split
  · exact follows_ok rfl
  · split
    · exact follows_ok rfl
    · exact follows_error _

theorem alike_of_isKey (hkey : value.isKey = true) : Alike value value := by
  cases value with
  | list _ => cases hkey
  | mapping _ => cases hkey
  | text word =>
    constructor
    · rw [ofValue]
      exact ofWord_follows word
    · rw [fieldOf]
      apply follows_ok
      simp [Same, equal, Value.equal]
    · intro key
      simp [listOf, follows_error]
  | _ => constructor <;> simp [ofValue, fieldOf, listOf, follows_error]

/-- Whatever a value is read as, in another order it is read as the same. -/
theorem alike_of_reordered (hproper : value.Proper) (h : Reordered value other) :
    Alike value other := by
  induction value using nested_induction generalizing other with
  | scalar value hkey =>
    obtain rfl := h.eq_of_isKey hkey
    exact alike_of_isKey hkey
  | list items ih =>
    obtain ⟨twins, rfl, hitems⟩ := h.list_inv
    rw [Value.Proper, properItems_iff] at hproper
    have heach := (List.forall₂_and_left _ _).mpr ⟨fun item hitem => hitem, hitems⟩
    have hfollow := itemsOf_follows <| heach.imp fun item twin ⟨hitem, htwin⟩ =>
      (ih item hitem (hproper item hitem) htwin).entry
    constructor
    · simp [ofValue, follows_error]
    · simp [fieldOf, follows_error]
    · intro key
      cases hitems with
      | nil => simp [listOf, follows_error]
      | cons _ _ =>
        rw [listOf, listOf]
        exact hfollow
  | mapping entries ih =>
    obtain ⟨others, rfl⟩ := h.mapping_inv
    rw [Value.Proper, properEntries_iff] at hproper
    obtain ⟨hkeys, hvalues⟩ := hproper
    have halike : ∀ entry ∈ entries, ∀ other, Reordered entry.2 other → Alike entry.2 other :=
      fun entry hentry other => ih entry hentry (hvalues entry hentry)
    constructor
    · exact ofValue_mapping_follows hkeys hvalues h halike
    · exact fieldOf_mapping_follows hkeys hvalues h halike
    · simp [listOf, follows_error]

/-! ## One test at a time -/

/-- The key that belongs to the test under a key. -/
def companion? : String → Option String
  | "query" => some "capture"
  | "text" => some "text_field"
  | _ => none

/-- What a mapping has under the key that belongs to a test. -/
def companions (whole : List (String × Value)) (key : String) : List (String × Value) :=
  ((companion? key).bind fun name => (under? name whole).map fun value => (name, value)).toList

/-- Whether a key and its value are a test: two of the tests can be turned off. -/
def isTest (key : String) (value : Value) : Bool :=
  match key with
  | "no_node" | "always" => value.truthy
  | key => order.contains key

/-- The tests of a mapping, each in a mapping of its own with what belongs to it. -/
def singles (entries : List (String × Value)) : List Value :=
  (entries.filter fun entry => isTest entry.1 entry.2).map fun entry =>
    .mapping (entry :: companions entries entry.1)

section Singles

variable {whole : List (String × Value)} {key : String}

theorem mem_companions {entry : String × Value} (h : entry ∈ companions whole key) :
    entry.1 ∈ predicateKeys ∧ entry.1 ∉ order := by
  simp only [companions, Option.mem_toList, Option.bind_eq_some_iff, Option.map_eq_some_iff] at h
  obtain ⟨name, hname, value, -, rfl⟩ := h
  unfold companion? at hname
  split at hname <;> cases hname <;> simp [predicateKeys, order]

theorem under?_companions {name : String} (h : companion? key = some name) (hne : name ≠ key) :
    under? name ((key, value) :: companions whole key) = under? name whole := by
  have hdiffers : (name == key) = false := beq_eq_false_iff_ne.mpr hne
  rw [companions, h, under?, List.lookup_cons, hdiffers, Option.bind_some]
  cases under? name whole <;> simp

theorem partOf_companions : partOf ((key, value) :: companions whole key) key value =
    partOf whole key value := by
  unfold partOf
  split
  case h_5 => rw [queryOf, queryOf, under?_companions rfl (by decide)]
  case h_6 => rw [under?_companions rfl (by decide)]
  all_goals rfl

theorem isSome_of_partOf {part : Option Predicate} (h : partOf whole key value = .ok part) :
    part.isSome = isTest key value := by
  unfold partOf at h
  split at h
  case h_8 =>
    cases h
    cases htrue : value.truthy <;> simp [isTest, htrue]
  case h_9 =>
    cases h
    cases htrue : value.truthy <;> simp [isTest, htrue]
  case h_13 =>
    cases h
    simp_all [isTest, order]
  all_goals
    obtain ⟨_, -, rfl⟩ := map_eq_ok.mp h
    rfl

end Singles

/-- The test under a key, if there is one and it is well formed. -/
def test? (parts : List (String × Outcome (Option Predicate))) (key : String) : Option Predicate :=
  match parts.lookup key with
  | some (.ok part) => part
  | _ => none

theorem inOrder_eq_ok {parts : List (String × Outcome (Option Predicate))} {keys : List String}
    {tests : List Predicate} (h : inOrder parts keys = .ok tests) :
    tests = keys.filterMap (test? parts) ∧
      ∀ key ∈ keys, ∀ error, parts.lookup key ≠ some (.error error) := by
  induction keys generalizing tests with
  | nil =>
    cases h
    exact ⟨rfl, nofun⟩
  | cons key rest ih =>
    rw [inOrder] at h
    split at h
    next hkey =>
      obtain ⟨htests, hrest⟩ := ih h
      simpa [test?, hkey, htests] using hrest
    next => cases h
    next hkey =>
      obtain ⟨htests, hrest⟩ := ih h
      simpa [test?, hkey, htests] using hrest
    next test hkey =>
      obtain ⟨others, hothers, rfl⟩ := map_eq_ok.mp h
      obtain ⟨htests, hrest⟩ := ih hothers
      simpa [test?, hkey, htests] using hrest

theorem mem_order_of_isTest {key : String} (h : isTest key value = true) : key ∈ order := by
  unfold isTest at h
  split at h
  · decide
  · decide
  · exact List.contains_iff_mem.mp h

theorem exists_test_of_isTest {key : String} {tests : List Predicate}
    (h : inOrder (partsOf entries entries) order = .ok tests)
    (hvalue : under? key entries = some value) (htest : isTest key value = true) :
    ∃ test ∈ tests, partOf entries key value = .ok (some test) := by
  obtain ⟨rfl, hsound⟩ := inOrder_eq_ok h
  have horder := mem_order_of_isTest htest
  have hlookup : (partsOf entries entries).lookup key = some (partOf entries key value) := by
    rw [lookup_partsOf]
    exact congrArg (Option.map _) hvalue
  cases hpart : partOf entries key value with
  | error error =>
    rw [hpart] at hlookup
    exact absurd hlookup (hsound key horder error)
  | ok part =>
    have hsome := isSome_of_partOf hpart
    rw [htest, Option.isSome_iff_exists] at hsome
    obtain ⟨test, rfl⟩ := hsome
    refine ⟨test, List.mem_filterMap.mpr ⟨key, horder, ?_⟩, rfl⟩
    rw [test?, hlookup, hpart]

/-- The tests of a mapping are what its single tests are read as. -/
theorem ofValue_singles {tests : List Predicate} (hkeys : (entries.map Prod.fst).Nodup)
    (h : inOrder (partsOf entries entries) order = .ok tests) :
    (∀ part ∈ singles entries, ∃ test ∈ tests, ofValue part = .ok test) ∧
      ∀ test ∈ tests, ∃ part ∈ singles entries, ofValue part = .ok test := by
  -- A test of the mapping is the same test of the mapping that has it alone.
  have hread : ∀ key value test, key ∈ order → partOf entries key value = .ok (some test) →
      ofValue (.mapping ((key, value) :: companions entries key)) = .ok test := by
    intro key value test hkey htest
    apply ofValue_mapping hkey fun entry => mem_companions
    rw [partOf_companions, htest]
  constructor
  · intro part hpart
    obtain ⟨⟨key, value⟩, hentry, rfl⟩ := List.mem_map.mp hpart
    obtain ⟨hmem, htest⟩ := List.mem_filter.mp hentry
    obtain ⟨test, hin, hpart⟩ := exists_test_of_isTest h (Entries.lookup_of_mem hkeys hmem) htest
    exact ⟨test, hin, hread key value test (mem_order_of_isTest htest) hpart⟩
  · intro test htest
    obtain ⟨rfl, -⟩ := inOrder_eq_ok h
    obtain ⟨key, horder, hfound⟩ := List.mem_filterMap.mp htest
    unfold test? at hfound
    split at hfound
    next part hlookup =>
      rw [lookup_partsOf, Option.map_eq_some_iff] at hlookup
      obtain ⟨value, hvalue, hpart⟩ := hlookup
      subst hfound
      refine ⟨_, List.mem_map.mpr ⟨(key, value), ?_, rfl⟩, hread key value test horder hpart⟩
      exact List.mem_filter.mpr ⟨Entries.mem_of_lookup hvalue, (isSome_of_partOf hpart).symm⟩
    next => cases hfound

/-! ## Tests that have all to hold -/

section Holding

variable {doc : Document} {target : Target} {tests : List Predicate}

theorem mem_partsOfAll (h : test ∈ tests) : test ∈ partsOfAll tests := by
  induction tests with
  | nil => cases h
  | cons first rest ih =>
    rw [partsOfAll, List.mem_append]
    rcases List.mem_cons.mp h with rfl | hrest
    · exact .inl (self_mem_parts _)
    · exact .inr (ih hrest)

theorem holds_all (h : ∀ test ∈ tests, ∃ answer, test.holds doc target = .ok answer) :
    ∃ answer, (Predicate.all tests).holds doc target = .ok answer ∧
      (answer = true ↔ ∀ test ∈ tests, test.holds doc target = .ok true) := by
  rw [holds, evaluate]
  induction tests with
  | nil =>
    rw [evaluateAll]
    exact ⟨true, rfl, by simp⟩
  | cons test rest ih =>
    obtain ⟨⟨answer, hanswer⟩, hrest⟩ := List.forall_mem_cons.mp h
    rw [evaluateAll, List.forall_mem_cons, hanswer]
    have hfaithful := evaluate_faithful target test (Memory.faithful_nil doc)
    rw [holds] at hanswer
    generalize evaluate doc target test [] = evaluated at hanswer hfaithful ⊢
    obtain ⟨outcome, left⟩ := evaluated
    obtain rfl : outcome = .ok answer := hanswer
    cases answer with
    | false => exact ⟨false, rfl, by simp⟩
    | true =>
      -- The rest goes on with what was remembered, which changes no answer.
      obtain ⟨others, hothers, hiff⟩ := ih hrest
      rw [← evaluateAll_recalled target rest hfaithful] at hothers
      exact ⟨others, hothers, by simpa using hiff⟩

theorem combine_eq_ok (h : combine value tests = .ok test) :
    tests = [test] ∨ test = .all tests := by
  unfold combine at h
  split at h <;> cases h
  · exact .inl rfl
  · exact .inr rfl

theorem holds_combine (hread : combine value tests = .ok test)
    (h : ∀ part ∈ test.parts, ∃ answer, part.holds doc target = .ok answer) :
    (∀ part ∈ tests, ∃ answer, part.holds doc target = .ok answer) ∧
      ∃ answer, test.holds doc target = .ok answer ∧
        (answer = true ↔ ∀ part ∈ tests, part.holds doc target = .ok true) := by
  rcases combine_eq_ok hread with rfl | rfl
  · obtain ⟨answer, hanswer⟩ := h test (self_mem_parts test)
    simp [hanswer]
  · have hparts : ∀ part ∈ tests, ∃ answer, part.holds doc target = .ok answer := by
      intro part hpart
      rw [parts] at h
      exact h part (List.mem_cons_of_mem _ (mem_partsOfAll hpart))
    exact ⟨hparts, holds_all hparts⟩

end Holding

/-- A mapping without a key given twice that is read as a predicate is read as an equal one in any
other order of its keys and of the keys of all mappings in it. Where no part of the predicate fails,
its answer is the conjunction of those of the single tests, each of which is read on its own. -/
theorem ofValue_conjunction (hproper : (Value.mapping entries).Proper)
    (hread : ofValue (.mapping entries) = .ok test) :
    (∀ other, (Value.mapping entries).Reordered other →
      ∃ twin, ofValue other = .ok twin ∧ test.equal twin = true) ∧
    ∀ doc target, (∀ part ∈ test.parts, ∃ answer, part.holds doc target = .ok answer) →
      ∃ answers : List Bool,
        List.Forall₂ (fun part answer => ∃ single, ofValue part = .ok single ∧
          single.holds doc target = .ok answer) (singles entries) answers ∧
        test.holds doc target = .ok answers.and := by
  constructor
  · intro other hother
    exact (alike_of_reordered hproper hother).entry test hread
  · intro doc target hdecided
    obtain ⟨-, tests, htests, hcombine⟩ := ofValue_mapping_eq_ok_iff.mp hread
    obtain ⟨hsingles, hback⟩ := ofValue_singles hproper.1 htests
    obtain ⟨hparts, answer, hanswer, hiff⟩ := holds_combine hcombine hdecided
    have hsingle : ∀ part ∈ singles entries, ∃ answer, ∃ single, ofValue part = .ok single ∧
        single.holds doc target = .ok answer := by
      intro part hpart
      obtain ⟨single, hmem, hsingle⟩ := hsingles part hpart
      obtain ⟨answer, hanswer⟩ := hparts single hmem
      exact ⟨answer, single, hsingle, hanswer⟩
    choose! answerOf hanswerOf using hsingle
    refine ⟨(singles entries).map answerOf, ?_, ?_⟩
    · rw [List.forall₂_map_right_iff, List.forall₂_same]
      exact hanswerOf
    · rw [hanswer]
      refine congrArg Except.ok (Bool.eq_iff_iff.mpr (hiff.trans ?_))
      rw [List.and, List.all_eq_true, List.forall_mem_map]
      constructor
      · intro hall part hpart
        obtain ⟨single, hsingle, hholds⟩ := hanswerOf part hpart
        obtain ⟨test, hmem, htest⟩ := hsingles part hpart
        cases htest.symm.trans hsingle
        exact Except.ok.inj (hholds.symm.trans (hall single hmem))
      · intro hall test hmem
        obtain ⟨part, hpart, htest⟩ := hback test hmem
        obtain ⟨single, hsingle, hholds⟩ := hanswerOf part hpart
        cases htest.symm.trans hsingle
        exact hholds.trans (congrArg Except.ok (hall part hpart))

def truthKeys : List (String × Value) := [("not", .text "no-node"), ("always", .bool true)]

/-- A captured node, with a list of tests that has a mapping in it. -/
def truthEntries (inner : List (String × Value)) : List (String × Value) :=
  [("any", .list [.text "no-node", .mapping inner]), ("capture", .text "value"),
    ("always", .bool false), ("query", .text "(true) @value")]

def truthTest : Predicate :=
  .all [.captured (.text "(true) @value") (.text "value"),
    .any [.noNode, .all [.always, .not .noNode]]]

theorem reordered_truth : (Value.mapping (truthEntries truthKeys)).Reordered
    (.mapping (truthEntries truthKeys.reverse).reverse) := by
  have hinner : (Value.mapping truthKeys).Reordered (.mapping truthKeys.reverse) := by
    refine .mapping rfl ?_ (List.reverse_perm _).symm
    exact .cons (.scalar rfl) (.cons (.scalar rfl) .nil)
  refine @Reordered.mapping _ (truthEntries truthKeys.reverse) _ rfl ?_ (List.reverse_perm _).symm
  exact .cons (.list (.cons (.scalar rfl) (.cons hinner .nil)))
    (.cons (.scalar rfl) (.cons (.scalar rfl) (.cons (.scalar rfl) .nil)))

theorem ofValue_conjunction_truth :
    ofValue (.mapping (truthEntries truthKeys)) = .ok truthTest ∧
    (∃ twin, ofValue (.mapping (truthEntries truthKeys.reverse).reverse) = .ok twin ∧
      truthTest.equal twin = true) ∧
    ∃ answers, List.Forall₂ (fun part answer => ∃ single, ofValue part = .ok single ∧
        single.holds truthDocument (Target.ofNode truthDocument truthNamed) = .ok answer)
        (singles (truthEntries truthKeys)) answers ∧
      truthTest.holds truthDocument (Target.ofNode truthDocument truthNamed) =
        .ok answers.and := by
  have hproper : (Value.mapping (truthEntries truthKeys)).Proper := by
    simp [truthEntries, truthKeys, Proper, ProperEntries, ProperItems]
  have hread : ofValue (.mapping (truthEntries truthKeys)) = .ok truthTest := by cbv
  obtain ⟨horder, hholds⟩ := ofValue_conjunction hproper hread
  refine ⟨hread, horder _ reordered_truth, hholds _ _ ?_⟩
  simp only [truthTest, parts, partsOfAll, List.cons_append, List.nil_append, List.append_nil,
    List.forall_mem_cons]
  exact ⟨⟨true, by cbv⟩, ⟨true, by cbv⟩, ⟨true, by cbv⟩, ⟨false, by cbv⟩, ⟨true, by cbv⟩,
    ⟨true, by cbv⟩, ⟨true, by cbv⟩, ⟨false, by cbv⟩, List.forall_mem_nil _⟩

end Predicate

end TreeRules
