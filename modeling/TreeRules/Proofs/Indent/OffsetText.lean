import Mathlib.Tactic.Common
import TreeRules.Indent.Offset
import TreeRules.Proofs.Text.Numerals

/-! # How offsets are written

An offset is an integer, or the name of the unit with a factor in front of it and a minus sign
between the two, both of which may be left out. Blanks stand around the whole and around the star of
a factor, and nowhere else. Every text of this form is read, and resolved to the columns that it
stands for at each width of a unit; every other text is refused.
-/
namespace TreeRules.Offset

/-- An integer as it is written: digits, with an optional minus sign in front. -/
inductive IntegerText : List Char → Int → Prop
  | plain {digits : List Char} {n : Nat} (h : Digit.Numeral digits n) : IntegerText digits n
  | negative {digits : List Char} {n : Nat} (h : Digit.Numeral digits n) :
    IntegerText ('-' :: digits) (-n)

/-- What stands in front of the unit: a factor with its star, or nothing, which counts as one. -/
inductive FactorText : List Char → Int → Prop
  | absent : FactorText [] 1
  | times {number before after : List Char} {n : Int} (hnumber : IntegerText number n)
    (hbefore : Blank.Only before) (hafter : Blank.Only after) :
    FactorText (number ++ before ++ '*' :: after) n

/-- What a text without blanks around it means: the columns that it stands for at each width of a
unit. -/
inductive Means : List Char → (Int → Int) → Prop
  | columns {text : List Char} {n : Int} (h : IntegerText text n) : Means text fun _ => n
  | units {front : List Char} {n : Int} (h : FactorText front n) :
    Means (front ++ unitName) fun unit => n * unit
  | negative {front : List Char} {n : Int} (h : FactorText front n) :
    Means (front ++ '-' :: unitName) fun unit => -(n * unit)

/-- What a text means, whatever blanks stand around it. -/
def Written (text : List Char) (meaning : Int → Int) : Prop :=
  ∃ lead body trail, text = lead ++ body ++ trail ∧ Blank.Only lead ∧ Blank.Only trail ∧
    Means body meaning

variable {text rest number front body : List Char} {n : Int} {meaning : Int → Int}

/-! ## Integers -/

/-- A text that does not go on with a digit. -/
def DigitsEnd (rest : List Char) : Prop := ∀ c ∈ rest.head?, Digit.isDigit c = false

/-- The number at the front of a text, without a sign. -/
def natural? (text : List Char) : Option (Nat × List Char) :=
  if (text.takeWhile Digit.isDigit).isEmpty then none
  else (Digit.number? (text.takeWhile Digit.isDigit)).map (·, text.dropWhile Digit.isDigit)

theorem integer?_minus (text : List Char) :
    integer? ('-' :: text) = (natural? text).map fun read => (-(read.1 : Int), read.2) := by
  simp only [integer?, natural?, List.span_eq_takeWhile_dropWhile, List.head?_cons,
    beq_self_eq_true, if_true, List.drop_one, List.tail_cons]
  split
  · rfl
  · cases Digit.number? (text.takeWhile Digit.isDigit) <;> rfl

theorem integer?_plain (h : text.head? ≠ some '-') :
    integer? text = (natural? text).map fun read => ((read.1 : Int), read.2) := by
  have hsign : (text.head? == some '-') = false := beq_eq_false_iff_ne.2 h
  simp only [integer?, natural?, List.span_eq_takeWhile_dropWhile, hsign, Bool.false_eq_true,
    if_false]
  split
  · rfl
  · cases Digit.number? (text.takeWhile Digit.isDigit) <;> rfl

theorem natural?_eq_some_iff {n : Nat} : natural? text = some (n, rest) ↔
    ∃ digits, text = digits ++ rest ∧ Digit.Numeral digits n ∧ DigitsEnd rest := by
  constructor
  · intro h
    unfold natural? at h
    split at h
    next => cases h
    next hne =>
      obtain ⟨m, hm, hread⟩ := Option.map_eq_some_iff.1 h
      cases hread
      refine ⟨text.takeWhile Digit.isDigit, List.takeWhile_append_dropWhile.symm, ?_, ?_⟩
      · exact (Digit.number?_eq_some_iff (by simpa using hne)).1 hm
      · intro c hc
        have hstop := List.head?_dropWhile_not Digit.isDigit text
        rw [Option.mem_def.1 hc] at hstop
        exact hstop
  · rintro ⟨digits, rfl, hnumeral, hend⟩
    have htaken : (digits ++ rest).takeWhile Digit.isDigit = digits := by
      rw [List.takeWhile_append_of_pos hnumeral.isDigit]
      cases rest with
      | nil => simp
      | cons c tail => simp [hend c rfl]
    have hleft : (digits ++ rest).dropWhile Digit.isDigit = rest := by
      rw [List.dropWhile_append_of_pos hnumeral.isDigit]
      cases rest with
      | nil => rfl
      | cons c tail => simp [hend c rfl]
    have hnumber := (Digit.number?_eq_some_iff hnumeral.1).2 hnumeral
    simp [natural?, htaken, hleft, hnumber, hnumeral.1]

theorem minus_not_isDigit : Digit.isDigit '-' = false := by decide

theorem IntegerText.mem (h : IntegerText number n) :
    ∀ c ∈ number, c = '-' ∨ Digit.isDigit c = true := by
  cases h with
  | plain hnumeral => exact fun c hc => .inr (hnumeral.isDigit c hc)
  | negative hnumeral =>
    exact List.forall_mem_cons.2 ⟨.inl rfl, fun c hc => .inr (hnumeral.isDigit c hc)⟩

theorem IntegerText.not_isBlank (h : IntegerText number n) :
    ∀ c ∈ number, Blank.isBlank c = false := by
  intro c hc
  rcases h.mem c hc with rfl | hdigit
  · decide
  · exact Digit.not_isBlank hdigit

theorem IntegerText.ne_nil (h : IntegerText number n) : number ≠ [] := by
  cases h with
  | plain hnumeral => exact hnumeral.1
  | negative => exact List.cons_ne_nil _ _

/-- An integer is read up to the last of its digits. -/
theorem integer?_eq_some_iff : integer? text = some (n, rest) ↔
    ∃ number, text = number ++ rest ∧ IntegerText number n ∧ DigitsEnd rest := by
  constructor
  · intro h
    by_cases hsign : text.head? = some '-'
    · obtain ⟨tail, rfl⟩ := List.head?_eq_some_iff.1 hsign
      rw [integer?_minus] at h
      obtain ⟨⟨m, left⟩, hread, hsame⟩ := Option.map_eq_some_iff.1 h
      cases hsame
      obtain ⟨digits, rfl, hnumeral, hend⟩ := natural?_eq_some_iff.1 hread
      exact ⟨'-' :: digits, rfl, .negative hnumeral, hend⟩
    · rw [integer?_plain hsign] at h
      obtain ⟨⟨m, left⟩, hread, hsame⟩ := Option.map_eq_some_iff.1 h
      cases hsame
      obtain ⟨digits, rfl, hnumeral, hend⟩ := natural?_eq_some_iff.1 hread
      exact ⟨digits, rfl, .plain hnumeral, hend⟩
  · rintro ⟨number, rfl, hnumber, hend⟩
    cases hnumber with
    | plain hnumeral =>
      have hsign : (number ++ rest).head? ≠ some '-' := by
        obtain ⟨c, digits, rfl⟩ := List.exists_cons_of_ne_nil hnumeral.1
        rintro ⟨rfl⟩
        cases minus_not_isDigit.symm.trans (hnumeral.isDigit '-' List.mem_cons_self)
      rw [integer?_plain hsign, natural?_eq_some_iff.2 ⟨number, rfl, hnumeral, hend⟩]
      rfl
    | negative hnumeral =>
      rw [List.cons_append, integer?_minus, natural?_eq_some_iff.2 ⟨_, rfl, hnumeral, hend⟩]
      rfl

/-! ## Factors -/

theorem star_digitsEnd {before : List Char} (hbefore : Blank.Only before) (rest : List Char) :
    DigitsEnd (before ++ '*' :: rest) := by
  intro c hc
  cases before with
  | nil =>
    cases hc
    decide
  | cons b tail =>
    cases hc
    by_contra hdigit
    have hblank := Digit.not_isBlank (Bool.not_eq_false _ ▸ hdigit)
    cases hblank.symm.trans (hbefore c List.mem_cons_self)

/-- What is read as a factor is one, and so is nothing. -/
theorem factor_split (text : List Char) :
    ∃ front, text = front ++ (factor text).2 ∧ FactorText front (factor text).1 := by
  unfold factor
  split
  next n rest hread =>
    obtain ⟨number, rfl, hnumber, -⟩ := integer?_eq_some_iff.1 hread
    split
    next tail hstar =>
      have hrest : rest = rest.takeWhile Blank.isBlank ++ '*' ::
          (tail.takeWhile Blank.isBlank ++ tail.dropWhile Blank.isBlank) := by
        rw [List.takeWhile_append_dropWhile, ← hstar, List.takeWhile_append_dropWhile]
      refine ⟨number ++ rest.takeWhile Blank.isBlank ++ '*' :: tail.takeWhile Blank.isBlank, ?_, ?_⟩
      · simpa using hrest
      · exact .times hnumber (fun c hc => List.mem_takeWhile_imp hc)
          fun c hc => List.mem_takeWhile_imp hc
    next => exact ⟨[], rfl, .absent⟩
  next => exact ⟨[], rfl, .absent⟩

/-- A factor is read where a text goes on with neither a blank nor an integer. -/
theorem factor_append (h : FactorText front n) (hblank : ∀ c ∈ rest.head?, Blank.isBlank c = false)
    (hinteger : integer? rest = none) : factor (front ++ rest) = (n, rest) := by
  cases h with
  | absent => simp [factor, hinteger]
  | @times number before after _ hnumber hbefore hafter =>
    have hread : integer? (number ++ (before ++ '*' :: (after ++ rest))) =
        some (n, before ++ '*' :: (after ++ rest)) :=
      integer?_eq_some_iff.2 ⟨number, rfl, hnumber, star_digitsEnd hbefore _⟩
    have hstar : (before ++ '*' :: (after ++ rest)).dropWhile Blank.isBlank =
        '*' :: (after ++ rest) := by
      rw [List.dropWhile_append_of_pos hbefore]
      rfl
    have hrest : (after ++ rest).dropWhile Blank.isBlank = rest := by
      rw [List.dropWhile_append_of_pos hafter]
      cases rest with
      | nil => rfl
      | cons c tail => simp [hblank c rfl]
    have htext : number ++ before ++ '*' :: after ++ rest =
        number ++ (before ++ '*' :: (after ++ rest)) := by simp
    rw [htext, factor, hread]
    simp only [hstar, hrest]

theorem head?_unitName : ∀ c ∈ unitName.head?, Blank.isBlank c = false := by
  rintro c ⟨⟩
  decide

theorem head?_minus (text : List Char) : ∀ c ∈ ('-' :: text).head?, Blank.isBlank c = false := by
  rintro c ⟨⟩
  decide

theorem factor_unitName (h : FactorText front n) :
    factor (front ++ unitName) = (n, unitName) ∧
      factor (front ++ '-' :: unitName) = (n, '-' :: unitName) := by
  constructor
  · exact factor_append h head?_unitName (by decide)
  · exact factor_append h (head?_minus unitName) (by decide)

theorem units?_append (h : FactorText front n) :
    units? (front ++ unitName) = some n ∧ units? (front ++ '-' :: unitName) = some (-n) := by
  obtain ⟨hplain, hnegative⟩ := factor_unitName h
  constructor
  · rw [units?, hplain]
    rfl
  · rw [units?, hnegative]
    rfl

theorem means_of_units? (h : units? text = some n) : Means text fun unit => n * unit := by
  obtain ⟨front, htext, hfactor⟩ := factor_split text
  rcases hread : factor text with ⟨m, rest⟩
  simp only [hread] at htext hfactor
  simp only [units?, hread] at h
  subst htext
  split at h
  next hrest =>
    cases h
    subst hrest
    exact .units hfactor
  next =>
    split at h
    next hrest =>
      cases h
      subst hrest
      have hmeaning : (fun unit => -m * unit) = fun unit => -(m * unit) := by
        funext unit
        exact Int.neg_mul m unit
      rw [hmeaning]
      exact .negative hfactor
    next => cases h

/-! ## Whole texts -/

theorem FactorText.head? (h : FactorText front n)
    (hrest : ∀ c ∈ rest.head?, Blank.isBlank c = false) :
    ∀ c ∈ (front ++ rest).head?, Blank.isBlank c = false := by
  cases h with
  | absent => exact hrest
  | times hnumber =>
    obtain ⟨c, tail, rfl⟩ := List.exists_cons_of_ne_nil hnumber.ne_nil
    rintro _ ⟨rfl⟩
    exact hnumber.not_isBlank c List.mem_cons_self

/-- What has a meaning starts and ends with no blank. -/
theorem Means.ends (h : Means body meaning) : body ≠ [] ∧
    (∀ c ∈ body.head?, Blank.isBlank c = false) ∧ ∀ c ∈ body.getLast?, Blank.isBlank c = false := by
  cases h with
  | columns hinteger =>
    exact ⟨hinteger.ne_nil, fun c hc => hinteger.not_isBlank c (List.mem_of_head? hc),
      fun c hc => hinteger.not_isBlank c (List.mem_of_getLast? hc)⟩
  | units hfactor =>
    refine ⟨by simp [unitName], hfactor.head? head?_unitName, ?_⟩
    rw [List.getLast?_append_of_ne_nil _ (by decide)]
    rintro c ⟨⟩
    decide
  | negative hfactor =>
    refine ⟨by simp, hfactor.head? (head?_minus unitName), ?_⟩
    rw [List.getLast?_append_of_ne_nil _ (by decide)]
    rintro c ⟨⟩
    decide

theorem trimChars_written {lead trail : List Char} (hlead : Blank.Only lead)
    (htrail : Blank.Only trail) (h : Means body meaning) :
    Blank.trimChars (lead ++ body ++ trail) = body := by
  obtain ⟨hne, hhead, hlast⟩ := h.ends
  exact Blank.trimOf_append hlead htrail hne hhead hlast

/-- The unit is no part of an integer. -/
theorem integer?_ne_whole (h : 'i' ∈ body) (m : Int) : integer? body ≠ some (m, []) := by
  intro hread
  obtain ⟨number, rfl, hnumber, -⟩ := integer?_eq_some_iff.1 hread
  rw [List.append_nil] at h
  rcases hnumber.mem 'i' h with hsign | hdigit
  · cases hsign
  · cases hdigit

theorem ofText?_of_units (h : 'i' ∈ Blank.trimChars text) :
    ofText? text = (units? (Blank.trimChars text)).map fun n => { units := n } := by
  simp only [ofText?]
  split
  next m hread => exact absurd hread (integer?_ne_whole h m)
  next => rfl

theorem ofText?_of_written (h : Written text meaning) :
    ∃ offset, ofText? text = some offset ∧ offset.resolve = meaning := by
  obtain ⟨lead, body, trail, rfl, hlead, htrail, hmeans⟩ := h
  have htrim := trimChars_written hlead htrail hmeans
  cases hmeans with
  | @columns _ n hinteger =>
    have hread : integer? body = some (n, []) :=
      integer?_eq_some_iff.2 ⟨body, (List.append_nil body).symm, hinteger, nofun⟩
    refine ⟨{ columns := n }, by simp only [ofText?, htrim, hread], ?_⟩
    funext unit
    simp [resolve]
  | @units front n hfactor =>
    refine ⟨{ units := n }, ?_, ?_⟩
    · rw [ofText?_of_units (by rw [htrim]; simp [unitName]), htrim, (units?_append hfactor).1]
      rfl
    · funext unit
      simp [resolve]
  | @negative front n hfactor =>
    refine ⟨{ units := -n }, ?_, ?_⟩
    · rw [ofText?_of_units (by rw [htrim]; simp [unitName]), htrim, (units?_append hfactor).2]
      rfl
    · funext unit
      simp [resolve]

theorem written_of_ofText? {offset : Offset} (h : ofText? text = some offset) :
    Written text offset.resolve := by
  obtain ⟨lead, trail, htext, hlead, htrail⟩ := Blank.exists_trimOf Blank.isBlank text
  refine ⟨lead, Blank.trimChars text, trail, htext, hlead, htrail, ?_⟩
  simp only [ofText?] at h
  split at h
  next n hread =>
    cases h
    obtain ⟨number, hnumber, hinteger, -⟩ := integer?_eq_some_iff.1 hread
    rw [List.append_nil] at hnumber
    have hmeaning : resolve { columns := n } = fun _ => n := by
      funext unit
      simp [resolve]
    rw [hmeaning, hnumber]
    exact .columns hinteger
  next =>
    obtain ⟨n, hunits, rfl⟩ := Option.map_eq_some_iff.1 h
    have hmeaning : resolve { units := n } = fun unit => n * unit := by
      funext unit
      simp [resolve]
    rw [hmeaning]
    exact means_of_units? hunits

/-- A text is an offset just if it is written as one, and then it is resolved to the columns that it
means, whichever way it is read; any other text is a bad offset. -/
theorem ofValue_written (text : String) :
    ((∃ offset, ofValue (.text text) = .ok offset) ↔ ∃ meaning, Written text.toList meaning) ∧
    (∀ offset meaning, ofValue (.text text) = .ok offset → Written text.toList meaning →
      ∀ unit, offset.resolve unit = meaning unit) ∧
    ((¬∃ meaning, Written text.toList meaning) →
      ofValue (.text text) = .error (.predicate (.badOffset (.text text)))) := by
  cases hread : ofText? text.toList with
  | some offset =>
    have hvalue : ofValue (.text text) = .ok offset := by simp only [ofValue, hread]
    have hwritten := written_of_ofText? hread
    refine ⟨⟨fun _ => ⟨_, hwritten⟩, fun _ => ⟨offset, hvalue⟩⟩, ?_,
      fun hno => absurd ⟨_, hwritten⟩ hno⟩
    intro other meaning hother hmeaning unit
    obtain ⟨same, hsame, rfl⟩ := ofText?_of_written hmeaning
    cases hvalue.symm.trans hother
    cases hread.symm.trans hsame
    rfl
  | none =>
    have hvalue : ofValue (.text text) = .error (.predicate (.badOffset (.text text))) := by
      simp only [ofValue, hread]
    have hno : ¬∃ meaning, Written text.toList meaning := by
      rintro ⟨meaning, hmeaning⟩
      obtain ⟨offset, hsome, -⟩ := ofText?_of_written hmeaning
      cases hread.symm.trans hsome
    refine ⟨⟨?_, fun hsome => absurd hsome hno⟩, ?_, fun _ => hvalue⟩
    · rintro ⟨offset, hoffset⟩
      cases hvalue.symm.trans hoffset
    · intro offset meaning hoffset
      cases hvalue.symm.trans hoffset

theorem numeral_two : Digit.Numeral ['2'] 2 :=
  ⟨by decide, [2], .cons ⟨by decide, 48, by decide, by decide⟩ .nil, rfl⟩

/-- Two minus signs cancel each other. -/
theorem ofValue_written_twice :
    Written " -2 *\t-indent\n".toList (fun unit => -(-2 * unit)) ∧
      ∃ offset, ofValue (.text " -2 *\t-indent\n") = .ok offset ∧ offset.resolve 4 = 8 := by
  have hfactor : FactorText "-2 *\t".toList (-2) :=
    @FactorText.times _ [' '] ['\t'] _ (.negative numeral_two) (Blank.only_singleton rfl)
      (Blank.only_singleton rfl)
  have hwritten : Written " -2 *\t-indent\n".toList fun unit => -(-2 * unit) :=
    ⟨[' '], _, ['\n'], rfl, Blank.only_singleton rfl, Blank.only_singleton rfl,
      .negative hfactor⟩
  obtain ⟨hread, hmeans, -⟩ := ofValue_written " -2 *\t-indent\n"
  obtain ⟨offset, hoffset⟩ := hread.2 ⟨_, hwritten⟩
  exact ⟨hwritten, offset, hoffset, hmeans offset _ hoffset hwritten 4⟩

end TreeRules.Offset
