import Mathlib
import TreeRules.Proofs.Highlight.Refinement
import TreeRules.Proofs.Highlight.Switching
import TreeRules.Proofs.Ruleset.Acceptance
import TreeRules.Proofs.Source.Rows

/-! # Highlighting rows

The rows of a request are checked one by one, so the last of them may come before the first. Their
bytes then run backwards, and the first rule that is asked for its captures refuses them, with an
error that is none of the engine. All other requests for rows that are there succeed as long as
features and tags are texts, since the queries and the refinements of checked rules always have an
answer.
-/
namespace TreeRules

/-! ## Bytes of rows -/

namespace Source

variable {source : Source} {first last : Nat}

theorem rowStart_mono (h : first ≤ last) (hlast : last < source.rows) :
    source.rowStart first ≤ source.rowStart last := by
  rcases Nat.eq_or_lt_of_le h with rfl | hlt
  · exact Nat.le_refl _
  · exact Nat.le_of_lt (rowStart_lt_rowStart hlt hlast)

theorem rowStop_lt_rowStart (h : last < first) (hfirst : first < source.rows) :
    source.rowStop last < source.rowStart first := by
  have hnext : last + 1 < source.rows := Nat.lt_of_le_of_lt h hfirst
  have hpositive : source.rowStart last < source.rowStart (last + 1) :=
    rowStart_lt_rowStart (Nat.lt_succ_self last) hnext
  have hmono : source.rowStart (last + 1) ≤ source.rowStart first := rowStart_mono h hfirst
  rw [rowStop, if_pos hnext]
  omega

theorem rowStop_lt_rowStart_iff (hfirst : first < source.rows) (hlast : last < source.rows) :
    source.rowStop last < source.rowStart first ↔ last < first := by
  refine ⟨fun h => ?_, fun h => rowStop_lt_rowStart h hfirst⟩
  by_contra hle
  have hmono := rowStart_mono (Nat.not_lt.1 hle) hlast
  have hstop := rowStart_le_rowStop hlast
  omega

end Source

/-! ## Layers of checked rules -/

namespace Overlay

/-- Only the fields of a span can stop layers that were all found out. -/
theorem addAll_eq_error {overlay : Overlay} {layers : List Layer} {error : Error}
    (h : overlay.addAll (layers.map .ok) = .error error) : ∃ faults, error = .fields faults := by
  induction layers generalizing overlay with
  | nil => cases h
  | cons layer rest ih =>
    rw [List.map_cons, addAll] at h
    split at h
    next => exact ih h
    next hadd =>
      cases h
      exact add_eq_error (congrArg Prod.snd hadd)

end Overlay

/-- Features are texts, and so are the tags that refinements give. -/
structure FeatureSet.Plain (set : FeatureSet) : Prop where
  features : ∀ feature ∈ set.features, Highlight.isText feature = true
  tags : ∀ rule ∈ set.rules, ∀ refinement ∈ rule.refine.rules,
    refinement.action.truthy = true → Highlight.isText refinement.action = true

/-- Some rule belongs to a feature that is on. -/
def FeatureSet.Runs (set : FeatureSet) (enabled : List Value) : Prop :=
  ∃ feature ∈ set.features, feature.memberOf enabled = true ∧ set.rulesFor feature ≠ []

namespace Highlight

open Overlay

variable {doc : Document} {rules : LanguageRules} {set : FeatureSet} {enabled : List Value}
  {range : Option (Int × Int)} {rule : HighlightRule} {feature : Value} {error : Error}

theorem checkRange_natCast (start stop : Nat) :
    checkRange (some ((start : Int), (stop : Int))) =
      if stop < start ∧ stop ≠ 0 then .error (.value .badByteRange) else .ok () := by
  have hiff : ((start : Int) < 0 ∨ (stop : Int) < 0 ∨ ((stop : Int) < start ∧ (stop : Int) ≠ 0)) ↔
      stop < start ∧ stop ≠ 0 := by omega
  simp only [checkRange, hiff]

/-- Every layer of a rule is found out if its bytes are not refused. -/
theorem layersOfRule_found (h : rules.Answered doc) (hrule : rule ∈ rules.highlight.rules)
    (hrange : checkRange range = .ok ()) {outcome : Outcome Layer}
    (houtcome : outcome ∈ layersOfRule doc range feature rule) : ∃ layer, .ok layer = outcome := by
  obtain ⟨query, hquery⟩ := h.queries rule hrule
  rw [layersOfRule, capturesOf_eq_ok rule hrange hquery] at houtcome
  obtain ⟨capture, -, houtcome⟩ := List.mem_flatMap.1 houtcome
  obtain ⟨tags, htags⟩ := tagsOf_succeeds (h.refinements rule hrule) capture
  rw [layersOfCapture, htags] at houtcome
  obtain ⟨tag, -, rfl⟩ := List.mem_map.1 houtcome
  exact ⟨_, rfl⟩

theorem layersOfRule_refused (h : rules.Answered doc) (hrule : rule ∈ rules.highlight.rules)
    (hrange : checkRange range = .error error) :
    layersOfRule doc range feature rule = [.error error] := by
  obtain ⟨query, hquery⟩ := h.queries rule hrule
  simp [layersOfRule, capturesOf, hquery, hrange, bind, Except.bind]

theorem mem_layers (hkeys : ∀ feature ∈ set.features, feature.isKey = true)
    {outcome : Outcome Layer} : outcome ∈ layers doc set enabled range ↔
      ∃ feature ∈ set.features, feature.memberOf enabled = true ∧
        ∃ rule ∈ set.rulesFor feature, outcome ∈ layersOfRule doc range feature rule := by
  rw [layers, List.mem_flatMap]
  refine exists_congr fun feature => and_congr_right fun hfeature => ?_
  rw [layersOfFeature, hkeys feature hfeature]
  cases feature.memberOf enabled with
  | true => simp
  | false => simp

theorem layers_found (h : rules.Answered doc)
    (hkeys : ∀ feature ∈ rules.highlight.features, feature.isKey = true)
    (hrange : rules.highlight.Runs enabled → checkRange range = .ok ()) :
    ∃ found : List Layer, layers doc rules.highlight enabled range = found.map .ok := by
  have hfound : ∀ outcome ∈ layers doc rules.highlight enabled range,
      outcome ∈ Set.range (Except.ok : Layer → Outcome Layer) := by
    intro outcome houtcome
    obtain ⟨feature, hfeature, hon, rule, hrule, houtcome⟩ := (mem_layers hkeys).1 houtcome
    have hruns : rules.highlight.Runs enabled :=
      ⟨feature, hfeature, hon, List.ne_nil_of_mem hrule⟩
    exact layersOfRule_found h (List.mem_filter.1 hrule).1 (hrange hruns) houtcome
  have hlist : layers doc rules.highlight enabled range ∈ Set.range (List.map Except.ok) := by
    rw [Set.range_list_map]
    exact hfound
  obtain ⟨found, hfound⟩ := hlist
  exact ⟨found, hfound.symm⟩

/-- The first rule that is asked stops the run if the bytes are refused. -/
theorem addAll_layers_refused (h : rules.Answered doc)
    (hkeys : ∀ feature ∈ rules.highlight.features, feature.isKey = true)
    (hrange : checkRange range = .error error) (hruns : rules.highlight.Runs enabled) :
    addAll [] (layers doc rules.highlight enabled range) = .error error := by
  have hall : ∀ outcome ∈ layers doc rules.highlight enabled range, outcome = .error error := by
    intro outcome houtcome
    obtain ⟨feature, -, -, rule, hrule, houtcome⟩ := (mem_layers hkeys).1 houtcome
    rw [layersOfRule_refused h (List.mem_filter.1 hrule).1 hrange] at houtcome
    exact List.mem_singleton.1 houtcome
  have hsome : .error error ∈ layers doc rules.highlight enabled range := by
    obtain ⟨feature, hfeature, hon, hrules⟩ := hruns
    obtain ⟨rule, hrule⟩ := List.exists_mem_of_ne_nil _ hrules
    refine (mem_layers hkeys).2 ⟨feature, hfeature, hon, rule, hrule, ?_⟩
    rw [layersOfRule_refused h (List.mem_filter.1 hrule).1 hrange]
    exact List.mem_singleton_self _
  cases hlayers : layers doc rules.highlight enabled range with
  | nil =>
    rw [hlayers] at hsome
    cases hsome
  | cons first rest =>
    rw [hlayers] at hall
    rw [hall first List.mem_cons_self, addAll]

theorem start_nonneg {layer : Layer} (h : .ok layer ∈ layers doc set enabled range) :
    0 ≤ layer.start := by
  obtain ⟨feature, -, h⟩ := List.mem_flatMap.1 h
  obtain ⟨-, rule, -, h⟩ := mem_layersOfFeature h
  obtain ⟨captures, -, capture, -, h⟩ := mem_layersOfRule h
  obtain ⟨-, hends, -⟩ := mem_layersOfCapture h
  have hstart : layer.start = (clip range capture.place.start capture.place.stop).1 :=
    congrArg Prod.fst hends
  rw [hstart]
  cases range with
  | none => exact Int.natCast_nonneg _
  | some stretch => exact (Int.natCast_nonneg _).trans (le_max_left _ _)

theorem text_of_tagsOf (hplain : set.Plain) (hrule : rule ∈ set.rules) {capture : Capture}
    {tags : List Value} (htags : tagsOf doc rule capture = .ok tags) {tag : Value}
    (htag : tag ∈ tags) : isText tag = true := by
  unfold tagsOf at htags
  split at htags
  · cases htags
    cases List.mem_singleton.1 htag
    rfl
  · obtain ⟨actions, hactions, rfl⟩ := Outcome.map_eq_ok.1 htags
    obtain ⟨haction, htruthy⟩ := List.mem_filter.1 htag
    obtain ⟨refinement, hchosen, rfl⟩ := Table.chooses_of_mem_resolveAll hactions haction
    exact hplain.tags rule hrule refinement hchosen.mem htruthy

theorem hasTexts_of_plain (hplain : set.Plain) {layer : Layer}
    (h : .ok layer ∈ layers doc set enabled range) : layer.HasTexts := by
  obtain ⟨feature, hfeature, h⟩ := List.mem_flatMap.1 h
  obtain ⟨-, rule, hrule, h⟩ := mem_layersOfFeature h
  obtain ⟨captures, -, capture, -, h⟩ := mem_layersOfRule h
  obtain ⟨-, -, rfl, tags, htags, htag⟩ := mem_layersOfCapture h
  obtain ⟨tag, htag⟩ := exists_text (text_of_tagsOf hplain (List.mem_filter.1 hrule).1 htags htag)
  obtain ⟨feature, hfeature⟩ := exists_text (hplain.features _ hfeature)
  exact ⟨tag, feature, Prod.ext htag hfeature⟩

/-! ## Projections of checked rules -/

/-- Bytes that run backwards are refused as soon as there is a rule to ask. -/
theorem project_refused (h : rules.Answered doc) (hfresh : doc.checkFresh = .ok ())
    (hkeys : ∀ feature ∈ rules.highlight.features, feature.isKey = true)
    (henabled : ∀ feature ∈ enabled, feature.isKey = true)
    (hrange : checkRange range = .error error) (hruns : rules.highlight.Runs enabled) :
    project doc rules.highlight enabled range = .error error := by
  have hall : enabled.all Value.isKey = true := List.all_eq_true.2 henabled
  simp [project, hfresh, hall, addAll_layers_refused h hkeys hrange hruns, bind, Except.bind]

theorem project_eq_error {found : List Layer} (hfresh : doc.checkFresh = .ok ())
    (hlayers : layers doc set enabled range = found.map .ok)
    (h : project doc set enabled range = .error error) :
    error = .wrongKind ∨ ∃ faults, error = .fields faults := by
  unfold project at h
  dsimp only at h
  rcases Outcome.bind_eq_error.1 h with hstale | ⟨_, -, h⟩
  · cases hfresh.symm.trans hstale
  · split at h
    · cases h
      exact .inl rfl
    · rcases Outcome.bind_eq_error.1 h with hrun | ⟨overlay, -, h⟩
      · rw [hlayers] at hrun
        exact .inr (addAll_eq_error hrun)
      · split at h
        · cases h
          exact .inl rfl
        · cases h

theorem project_succeeds {found : List Layer} (hplain : set.Plain)
    (hfresh : doc.checkFresh = .ok ()) (henabled : ∀ feature ∈ enabled, feature ∈ set.features)
    (hlayers : layers doc set enabled range = found.map .ok) :
    ∃ spans, project doc set enabled range = .ok spans := by
  have htexts : ∀ feature ∈ enabled, isText feature = true :=
    fun feature hfeature => hplain.features feature (henabled feature hfeature)
  have hfound : ∀ layer ∈ found, .ok layer ∈ layers doc set enabled range := by
    intro layer hlayer
    rw [hlayers]
    exact List.mem_map_of_mem hlayer
  obtain ⟨overlay, hrun⟩ := addAll_succeeds proper_nil
    (fun layer hlayer => start_nonneg (hfound layer hlayer))
    (fun layer hlayer => hasTexts_of_plain hplain (hfound layer hlayer))
  rw [← hlayers] at hrun
  have hkeys : ∀ feature ∈ enabled, feature.isKey = true :=
    fun feature hfeature => isKey_of_isText (htexts feature hfeature)
  exact ⟨overlay.spans, project_eq_ok.2
    ⟨⟨hfresh, List.all_eq_true.2 hkeys, List.all_eq_true.2 htexts⟩, overlay, hrun, rfl⟩⟩

end Highlight

/-! ## Requests for rows -/

namespace Source

variable (source : Source) (row : Int)

/-- A row is there. -/
def HasRow : Prop := 0 ≤ row ∧ row < source.rows

instance : Decidable (source.HasRow row) := inferInstanceAs (Decidable (_ ∧ _))

variable {source row}

theorem exists_natCast_of_hasRow (h : source.HasRow row) :
    ∃ place : Nat, row = place ∧ place < source.rows := by
  obtain ⟨place, rfl⟩ := Int.eq_ofNat_of_zero_le h.1
  exact ⟨place, rfl, Int.ofNat_lt.1 h.2⟩

theorem checkRow_of_hasRow (h : source.HasRow row) : source.checkRow row = .ok () := if_pos h

theorem checkRow_of_not_hasRow (h : ¬source.HasRow row) :
    source.checkRow row = .error (.tree (.rowOutside row source.rows)) := if_neg h

end Source

namespace Session

variable {session : Session} {doc : Document}

/-- The bytes of some rows run backwards, and there is a rule to ask for them. Byte zero, where an
empty first row stops, stands for no end, so bytes up to there never run backwards. -/
structure Backward (session : Session) (doc : Document) (first last : Int) : Prop where
  order : last < first
  stop : doc.source.rowStop last.toNat ≠ 0
  runs : ∃ on, session.features = .ok on ∧ session.rules.highlight.Runs on

theorem features_eq_error {error : Error} (h : session.features = .error error) :
    error = .wrongKind := by
  unfold features Feature.enabled at h
  dsimp only at h
  split at h
  · cases h
  · cases h
    rfl

theorem of_features_eq_ok {on : List Value} (h : session.features = .ok on) :
    (∀ feature ∈ session.rules.highlight.features, feature.isKey = true) ∧
      ∀ feature ∈ on, feature ∈ session.rules.highlight.features := by
  obtain ⟨hkeys, rfl⟩ := Feature.enabled_eq_ok_iff.1 h
  refine ⟨fun feature hfeature => hkeys feature (List.mem_append_right _ hfeature), ?_⟩
  exact fun feature hfeature => (List.mem_filter.1 hfeature).1

theorem features_succeeds (h : session.rules.highlight.Plain) :
    ∃ on, session.features = .ok on := by
  refine ⟨_, Feature.enabled_eq_ok_iff.2 ⟨?_, rfl⟩⟩
  have hdeclared : ∀ feature ∈ Feature.declared session.rules.highlight.levels,
      feature.isKey = true :=
    fun feature hfeature => Highlight.isKey_of_isText (h.features feature hfeature)
  simp only [List.forall_mem_append, List.forall_mem_map]
  refine ⟨⟨⟨?_, fun _ _ => rfl⟩, fun _ _ => rfl⟩, hdeclared⟩
  intro feature hfeature
  obtain ⟨level, hlevel, hfeature⟩ := List.mem_flatten.1 hfeature
  exact hdeclared feature (List.mem_flatten.2 ⟨level, List.mem_of_mem_take hlevel, hfeature⟩)

theorem highlightRows_outside {first last : Int}
    (h : ¬(doc.source.HasRow first ∧ doc.source.HasRow last)) :
    ∃ fault, session.highlightRows doc first last = .error (.tree fault) := by
  unfold highlightRows
  by_cases hfirst : doc.source.HasRow first
  · have hlast : ¬doc.source.HasRow last := fun hlast => h ⟨hfirst, hlast⟩
    rw [Source.checkRow_of_hasRow hfirst, Source.checkRow_of_not_hasRow hlast]
    exact ⟨_, rfl⟩
  · rw [Source.checkRow_of_not_hasRow hfirst]
    exact ⟨_, rfl⟩

theorem highlightRows_natCast {first last : Nat} (hfirst : first < doc.source.rows)
    (hlast : last < doc.source.rows) : session.highlightRows doc first last =
      session.features >>= fun on => Highlight.project (session.view doc) session.rules.highlight on
        (some ((doc.source.rowStart first : Int), (doc.source.rowStop last : Int))) := by
  have hthere : ∀ row : Nat, row < doc.source.rows → doc.source.checkRow row = .ok () :=
    fun row hrow => Source.checkRow_of_hasRow ⟨Int.natCast_nonneg row, Int.ofNat_lt.2 hrow⟩
  rw [highlightRows, hthere first hfirst, hthere last hlast, bytesOfRows, Source.lineStop_natCast,
    Source.lineStart_natCast hfirst]
  rfl

theorem checkRange_rows {first last : Nat} (hfirst : first < doc.source.rows)
    (hlast : last < doc.source.rows) :
    Highlight.checkRange
        (some ((doc.source.rowStart first : Int), (doc.source.rowStop last : Int))) =
      if last < first ∧ doc.source.rowStop last ≠ 0 then .error (.value .badByteRange)
      else .ok () := by
  simp only [Highlight.checkRange_natCast, Source.rowStop_lt_rowStart_iff hfirst hlast]

theorem highlightRows_backward {first last : Nat} (hfirst : first < doc.source.rows)
    (hlast : last < doc.source.rows) (hanswered : session.rules.Answered (session.view doc))
    (hfresh : doc.checkFresh = .ok ()) (h : session.Backward doc first last) :
    session.highlightRows doc first last = .error (.value .badByteRange) := by
  obtain ⟨horder, hstop, on, hon, hruns⟩ := h
  obtain ⟨hkeys, hdeclared⟩ := of_features_eq_ok hon
  rw [highlightRows_natCast hfirst hlast, hon]
  refine Highlight.project_refused hanswered hfresh hkeys ?_ ?_ hruns
  · exact fun feature hfeature => hkeys feature (hdeclared feature hfeature)
  · rw [checkRange_rows hfirst hlast, if_pos ⟨Int.ofNat_lt.1 horder, hstop⟩]

/-- All layers are found out where no bytes run backwards past a rule. -/
theorem layers_of_not_backward {first last : Nat} (hfirst : first < doc.source.rows)
    (hlast : last < doc.source.rows) (hanswered : session.rules.Answered (session.view doc))
    (h : ¬session.Backward doc first last) {on : List Value} (hon : session.features = .ok on) :
    ∃ found : List Layer, Highlight.layers (session.view doc) session.rules.highlight on
        (some ((doc.source.rowStart first : Int), (doc.source.rowStop last : Int))) =
      found.map .ok := by
  refine Highlight.layers_found hanswered (of_features_eq_ok hon).1 fun hruns => ?_
  rw [checkRange_rows hfirst hlast, if_neg]
  rintro ⟨horder, hstop⟩
  exact h ⟨Int.ofNat_lt.2 horder, hstop, on, hon, hruns⟩

/-- Where no bytes run backwards, only features and tags that are no texts can make a request fail:
because of their kind, or because of the fields of a span. -/
theorem highlightRows_forward {first last : Nat} (hfirst : first < doc.source.rows)
    (hlast : last < doc.source.rows) (hanswered : session.rules.Answered (session.view doc))
    (hfresh : (session.view doc).checkFresh = .ok ()) (h : ¬session.Backward doc first last) :
    (∃ spans, session.highlightRows doc first last = .ok spans) ∨
      ¬session.rules.highlight.Plain ∧ ∃ error,
        session.highlightRows doc first last = .error error ∧
          (error = .wrongKind ∨ ∃ faults, error = .fields faults) := by
  cases hrows : session.highlightRows doc first last with
  | ok spans => exact .inl ⟨spans, rfl⟩
  | error error =>
    refine .inr ⟨fun hplain => ?_, error, rfl, ?_⟩
    · obtain ⟨on, hon⟩ := features_succeeds hplain
      obtain ⟨found, hlayers⟩ := layers_of_not_backward hfirst hlast hanswered h hon
      obtain ⟨spans, hspans⟩ :=
        Highlight.project_succeeds hplain hfresh (of_features_eq_ok hon).2 hlayers
      rw [highlightRows_natCast hfirst hlast, hon] at hrows
      cases hspans.symm.trans hrows
    · rw [highlightRows_natCast hfirst hlast] at hrows
      rcases Outcome.bind_eq_error.1 hrows with hfeatures | ⟨on, hon, hproject⟩
      · exact .inl (features_eq_error hfeatures)
      · obtain ⟨found, hlayers⟩ := layers_of_not_backward hfirst hlast hanswered h hon
        exact Highlight.project_eq_error hfresh hlayers hproject

/-- A request of a session for rows of a fresh document fails with an error of the engine if one of
the rows is not there. If both are there, their bytes are refused if they run backwards and there is
a rule to ask for them. Else the request succeeds, unless a feature or a tag is no text. -/
theorem highlightRows_outcome {workspace : Workspace} {settings : Settings} {language : String}
    (hsession : start workspace settings language = .ok session)
    (hlanguage : doc.language = language) (htoolkit : doc.toolkit = workspace.toolkit)
    (hfresh : doc.checkFresh = .ok ()) (first last : Int) :
    (¬(doc.source.HasRow first ∧ doc.source.HasRow last) →
      ∃ fault, session.highlightRows doc first last = .error (.tree fault)) ∧
    (doc.source.HasRow first → doc.source.HasRow last →
      (session.Backward doc first last →
        session.highlightRows doc first last = .error (.value .badByteRange)) ∧
      (¬session.Backward doc first last →
        (∃ spans, session.highlightRows doc first last = .ok spans) ∨
          ¬session.rules.highlight.Plain ∧ ∃ error,
            session.highlightRows doc first last = .error error ∧
              (error = .wrongKind ∨ ∃ faults, error = .fields faults))) := by
  have hanswered : session.rules.Answered (session.view doc) := by
    obtain ⟨rules, hbuild, rfl⟩ := Outcome.map_eq_ok.1 hsession
    exact build_answered hbuild hlanguage htoolkit
  refine ⟨highlightRows_outside, fun hfirstRow hlastRow => ?_⟩
  obtain ⟨first, rfl, hfirst⟩ := Source.exists_natCast_of_hasRow hfirstRow
  obtain ⟨last, rfl, hlast⟩ := Source.exists_natCast_of_hasRow hlastRow
  exact ⟨highlightRows_backward hfirst hlast hanswered hfresh,
    highlightRows_forward hfirst hlast hanswered hfresh⟩

/-! ## Two rows of words -/

def rowRules : Value :=
  Ruleset.Entry.document "rows" "words" [["words"]]
    [Ruleset.Entry.highlight "Words" "words" "(word) @word" .append
      [Ruleset.Entry.tagged Ruleset.Entry.always "name"]] [] [] []

def rowWorkspace : Workspace where
  files := [("rows.yml", .mapping [("loaded", rowRules)])]
  toolkit := wordWorkspace.toolkit

def rowSettings : Settings where
  rules := { file := some "rows.yml", ruleset := "rows" }

/-- The session that is opened with these rules. -/
def rowSession : Session where
  rules :=
    { language := .text "words"
      highlight :=
        { levels := [[.text "words"]]
          rules := [{ feature := .text "words", query := .text "(word) @word",
                      refine := { name := "Words refine",
                                  rules := [⟨.always, .text "name", .text ""⟩] },
                      name := .text "Words" }] }
      indent := { name := "rows indent" }
      things := { name := "rows things" } }
  settings := rowSettings

def rowTree : Tree :=
  .node ⟨0, "text", 0, 4, true, none, false⟩
    [.node ⟨1, "word", 0, 2, true, none, false⟩ [], .node ⟨2, "word", 3, 4, true, none, false⟩ []]

/-- The words `ab` and `c`, each in a row. -/
def rowDocument : Document where
  language := "words"
  source := Source.ofBytes [97, 98, 10, 99]
  tree := rowTree
  captures _ _ := [("word", rowTree.children.map fun word => ⟨word, [rowTree]⟩)]
  toolkit := wordWorkspace.toolkit

theorem start_rows : start rowWorkspace rowSettings "words" = .ok rowSession := by cbv

theorem plain_rows : rowSession.rules.highlight.Plain where
  features := by simp [rowSession, FeatureSet.features, Feature.declared, Highlight.isText]
  tags := by simp [rowSession, Highlight.isText]

theorem backward_rows : rowSession.Backward rowDocument 1 0 where
  order := by decide
  stop := by decide
  runs := ⟨[.text "words"], by cbv, .text "words", List.mem_singleton_self _, by cbv,
    List.cons_ne_nil _ _⟩

theorem highlightRows_outcome_rows :
    start rowWorkspace rowSettings "words" = .ok rowSession ∧ rowDocument.checkFresh = .ok () ∧
    (∃ fault, rowSession.highlightRows rowDocument 0 2 = .error (.tree fault)) ∧
    (∃ spans, rowSession.highlightRows rowDocument 0 1 = .ok spans) ∧
    rowSession.highlightRows rowDocument 1 0 = .error (.value .badByteRange) := by
  have hall := highlightRows_outcome start_rows (rfl : rowDocument.language = "words")
    (rfl : rowDocument.toolkit = rowWorkspace.toolkit) rfl
  refine ⟨start_rows, rfl, (hall 0 2).1 (by decide), ?_, ?_⟩
  · have hforward : ¬rowSession.Backward rowDocument 0 1 := fun h => absurd h.order (by decide)
    rcases ((hall 0 1).2 (by decide) (by decide)).2 hforward with hspans | ⟨hodd, -⟩
    · exact hspans
    · exact absurd plain_rows hodd
  · exact ((hall 1 0).2 (by decide) (by decide)).1 backward_rows

/-- Two rows that are there, asked for in the wrong order, make an error that is none of the
engine. -/
theorem highlightRows_upwards :
    start rowWorkspace rowSettings "words" = .ok rowSession ∧ rowDocument.language = "words" ∧
    rowDocument.toolkit = rowWorkspace.toolkit ∧ rowDocument.checkFresh = .ok () ∧
    ∃ error, rowSession.highlightRows rowDocument 1 0 = .error error ∧
      error.ofEngine = false ∧ error.message = "Invalid byte range" := by
  refine ⟨start_rows, rfl, rfl, rfl, .value .badByteRange, ?_, rfl, rfl⟩
  cbv

end Session

end TreeRules
