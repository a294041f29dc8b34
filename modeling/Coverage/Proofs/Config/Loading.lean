import Coverage.Config
import Coverage.Proofs.Steps

/-!
# Loading a configuration from a map

Which values describe a configuration. Every setting of a map can be given or left out: a switch is a truth value, the
name can be used in every scope, and the pattern is nothing or a text that can be read as one. The configuration has
what is given and the usual settings elsewhere. All this holds for every language of patterns.

Other values are refused, with one exception: a pattern of bytes is read like a text, although no line can be searched
for it. Loading does not look at the types of unknown keys and of the pattern before it works with them, so some values
are refused by an error that does not say that the settings are wrong. These are the unforeseen ones.
-/

namespace Coverage

/-- An identifier that is no keyword and that is not changed inside a class. -/
structure UsableName (s : String) : Prop where
  identifier : Text.isIdentifier s = true
  free : s ∉ keywords
  unchanged : s.startsWith "__" = true → s.endsWith "__" = true

theorem isUsableName_iff {s : String} : isUsableName s = true ↔ UsableName s := by
  simp only [isUsableName, Bool.and_eq_true, Bool.not_eq_true', List.contains_eq_mem, decide_eq_false_iff_not]
  constructor
  · rintro ⟨⟨hidentifier, hfree⟩, hends⟩
    refine ⟨hidentifier, hfree, fun hstarts ↦ ?_⟩
    simpa [hstarts] using hends
  · intro h
    refine ⟨⟨h.identifier, h.free⟩, ?_⟩
    cases hstarts : s.startsWith "__" with
    | false => rfl
    | true => simp [h.unchanged hstarts]

theorem usableName_usualName : UsableName usualName := isUsableName_iff.1 (by decide +kernel)

namespace Config

variable {language : PatternLanguage} {pairs : List (Given × Given)}
variable {g : Given} {e : ConfigError}

/-- What is given for the name can be one. -/
def Named (pairs : List (Given × Given)) : Prop :=
  ∀ g, Given.lookup "global_name" pairs = some g → ∃ s, g = .data (.str s) ∧ UsableName s

/-- Nothing is wrong with a map, except perhaps the pattern. -/
structure Sound (pairs : List (Given × Given)) : Prop where
  known : ∀ p ∈ pairs, ∃ name ∈ fieldNames, p.1 = .data (.str name)
  switches : ∀ name ∈ switches, ∀ g, Given.lookup name pairs = some g → ∃ b, g = .data (.bool b)
  named : Named pairs

/-- No pattern, or a text that can be read as one. -/
inductive IsPattern (language : PatternLanguage) : Given → Prop
  | none : IsPattern language (.data .null)
  | text {s : String} {found : List Char → Bool} (h : language.compile s = .ok found) :
      IsPattern language (.data (.str s))

/-- Nothing is wrong with a map. -/
structure Valid (language : PatternLanguage) (pairs : List (Given × Given)) : Prop extends Sound pairs where
  patterned : ∀ g, Given.lookup "exclude_pattern" pairs = some g → IsPattern language g

/-- Nothing is wrong with a map but that the pattern is one of bytes. -/
structure Overlooked (language : PatternLanguage) (pairs : List (Given × Given)) : Prop extends Sound pairs where
  patterned : ∃ b, Given.lookup "exclude_pattern" pairs = some (.bytes b) ∧ language.compileBytes b = .ok ()

/-- A value that is refused as a pattern without being read, or one with a number that is too large. -/
inductive UnreadPattern (language : PatternLanguage) : Given → Prop
  | other {g : Given} (hnull : g ≠ .data .null) (htext : ∀ s, g ≠ .data (.str s)) (hbytes : ∀ b, g ≠ .bytes b) :
      UnreadPattern language g
  | text {s message : String} (h : language.compile s = .error (.excessive message)) :
      UnreadPattern language (.data (.str s))
  | bytes {b : List UInt8} {message : String} (h : language.compileBytes b = .error (.excessive message)) :
      UnreadPattern language (.bytes b)

/-- A map that loading does not expect: a key is no text, or nothing but the pattern is wrong and it is not even read.
-/
inductive Unforeseen (language : PatternLanguage) (pairs : List (Given × Given)) : Prop
  | key {p : Given × Given} (hp : p ∈ pairs) (h : ∀ s, p.1 ≠ .data (.str s))
  | pattern {g : Given} (hsound : Sound pairs) (hg : Given.lookup "exclude_pattern" pairs = some g)
      (h : UnreadPattern language g)

/-- The configuration has the given values, and the usual ones elsewhere. -/
def Describes (pairs : List (Given × Given)) (c : Config) : Prop :=
  c.settings = ({} : Config).settings.map fun setting ↦
    (setting.1, (Given.lookup setting.1 pairs).getD setting.2)

/-! ## Single settings -/

/-- Usable names are accepted, and nothing else. -/
theorem checkName_eq_ok {s : String} : checkName g = .ok s ↔ g = .data (.str s) ∧ UsableName s := by
  rw [← isUsableName_iff]
  unfold checkName
  split
  next t =>
    constructor
    · intro h
      split at h
      next husable =>
        cases h
        exact ⟨rfl, husable⟩
      next => cases h
    · rintro ⟨heq, husable⟩
      cases heq
      rw [if_pos husable]
  next hother =>
    constructor
    · intro h
      cases h
    · rintro ⟨rfl, -⟩
      exact absurd rfl (hother s)

/-- A bad name is an error that loading expects. -/
theorem isOwn_of_checkName (h : checkName g = .error e) : e.isOwn = true := by
  unfold checkName at h
  split at h
  next =>
    split at h
    next => cases h
    next =>
      cases h
      rfl
  next =>
    cases h
    rfl

/-- What is accepted as a pattern. -/
inductive Readable (language : PatternLanguage) : Given → Prop
  | pattern {g : Given} (h : IsPattern language g) : Readable language g
  | bytes {b : List UInt8} (h : language.compileBytes b = .ok ()) : Readable language (.bytes b)

theorem readable_usual : Readable language (.data (.str usualPattern)) := by
  obtain ⟨found, hfound⟩ := language.exists_usual
  exact .pattern (.text hfound)

/-- A pattern is accepted if it is readable, and kept as it was given. -/
theorem checkPattern_eq_ok {o : Option Pattern} :
    checkPattern language g = .ok o ↔ Readable language g ∧ Pattern.given o = g := by
  constructor
  · intro h
    unfold checkPattern at h
    split at h
    next =>
      cases h
      exact ⟨.pattern .none, rfl⟩
    next s =>
      cases hs : language.compile s with
      | error problem =>
        rw [hs] at h
        cases h
      | ok found =>
        rw [hs] at h
        cases h
        exact ⟨.pattern (.text hs), rfl⟩
    next b =>
      cases hb : language.compileBytes b with
      | error problem =>
        rw [hb] at h
        cases h
      | ok _ =>
        rw [hb] at h
        cases h
        exact ⟨.bytes hb, rfl⟩
    next => cases h
  · rintro ⟨h, rfl⟩
    match o, h with
    | none, _ => rfl
    | some (.text s), .pattern (.text hs) =>
      rw [Pattern.given, checkPattern, hs]
      rfl
    | some (.bytes b), .bytes hb =>
      rw [Pattern.given, checkPattern, hb]
      rfl

theorem exists_checkPattern (h : Readable language g) : ∃ o, checkPattern language g = .ok o := by
  cases h with
  | pattern h =>
    cases h with
    | none => exact ⟨none, rfl⟩
    | text hs => exact ⟨_, checkPattern_eq_ok.2 ⟨.pattern (.text hs), @rfl _ (Pattern.given (some (.text _)))⟩⟩
  | bytes hb => exact ⟨_, checkPattern_eq_ok.2 ⟨.bytes hb, @rfl _ (Pattern.given (some (.bytes _)))⟩⟩

/-- A pattern that cannot be read is reported as a bad one, unless a number in it is too large. -/
theorem isOwn_of_checkPattern (h : checkPattern language g = .error e) :
    e.isOwn = false ↔ UnreadPattern language g := by
  unfold checkPattern at h
  split at h
  next => cases h
  next s =>
    cases hs : language.compile s with
    | ok found =>
      rw [hs] at h
      cases h
    | error problem =>
      rw [hs] at h
      cases h
      cases problem with
      | invalid message =>
        refine ⟨nofun, fun hunread ↦ ?_⟩
        cases hunread with
        | other _ htext _ => exact absurd rfl (htext s)
        | text hs' => simp [hs] at hs'
      | excessive message => exact ⟨fun _ ↦ .text hs, fun _ ↦ rfl⟩
  next b =>
    cases hb : language.compileBytes b with
    | ok _ =>
      rw [hb] at h
      cases h
    | error problem =>
      rw [hb] at h
      cases h
      cases problem with
      | invalid message =>
        refine ⟨nofun, fun hunread ↦ ?_⟩
        cases hunread with
        | other _ _ hbytes => exact absurd rfl (hbytes b)
        | bytes hb' => simp [hb] at hb'
      | excessive message => exact ⟨fun _ ↦ .bytes hb, fun _ ↦ rfl⟩
  next hnull htext hbytes =>
    cases h
    refine ⟨fun _ ↦ .other hnull htext hbytes, fun _ ↦ ?_⟩
    split <;> rfl

/-! ## Keys and switches -/

theorem isField_eq_true : isField g = true ↔ ∃ name ∈ fieldNames, g = .data (.str name) := by
  unfold isField
  split
  next s => simp
  next hother =>
    constructor
    · intro h
      cases h
    · rintro ⟨name, -, rfl⟩
      exact absurd rfl (hother name)

theorem texts?_isSome {keys : List Given} :
    (texts? keys).isSome = true ↔ ∀ g ∈ keys, ∃ s, g = .data (.str s) := by
  induction keys with
  | nil => simp [texts?]
  | cons g keys ih =>
    rw [List.forall_mem_cons, ← ih]
    match g with
    | .data (.str s) => simp [texts?]
    | .data .null | .data (.bool _) | .data (.int _) | .data (.float _) | .data (.list _) | .data (.map _) | .bytes _
    | .object _ _ _ _ => simp [texts?]

/-- Unknown keys are reported as such if they are texts. -/
theorem isOwn_unknownKeys {keys : List Given} (hne : keys ≠ []) :
    (unknownKeys keys).isOwn = true ↔ ∀ g ∈ keys, ∃ s, g = .data (.str s) := by
  rw [← texts?_isSome]
  unfold unknownKeys
  split
  next hsome => simp [ConfigError.isOwn, hsome]
  next hnone => simp [ConfigError.isOwn, hnone]
  next hnone =>
    rw [hnone]
    split
    · simp [ConfigError.isOwn]
    · split <;> simp [ConfigError.isOwn]
  next => exact absurd rfl hne

theorem badSwitch?_eq_none : badSwitch? pairs = none ↔
    ∀ name ∈ switches, ∀ g, Given.lookup name pairs = some g → ∃ b, g = .data (.bool b) := by
  unfold badSwitch?
  rw [List.find?_eq_none]
  refine forall₂_congr fun name _ ↦ ?_
  split
  next hlookup => simp [hlookup]
  next g hother hlookup =>
    simp only [hlookup, Option.some.injEq, forall_eq', not_true_eq_false, false_iff, not_exists]
    rintro b rfl
    exact hother b rfl
  next hlookup => simp [hlookup]

/-! ## All settings -/

/-- A property of the usual value holds of what is given if it holds of the value in use. -/
theorem forall_given {P : Given → Prop} {given : Option Given} {usual : Given} (h : P usual) :
    (∀ g, given = some g → P g) ↔ P (given.getD usual) := by
  cases given <;> simp [h]

theorem describes_iff {c : Config} : Describes pairs c ↔
    .data (.str c.globalName) = (Given.lookup "global_name" pairs).getD (.data (.str usualName)) ∧
    c.statements = (Given.lookup "statements" pairs).getD (.data (.bool true)) ∧
    c.branches = (Given.lookup "branches" pairs).getD (.data (.bool true)) ∧
    c.functions = (Given.lookup "functions" pairs).getD (.data (.bool true)) ∧
    Pattern.given c.excludePattern = (Given.lookup "exclude_pattern" pairs).getD (.data (.str usualPattern)) := by
  simp [Describes, settings, Pattern.given]

theorem named_iff : Named pairs ↔
    ∃ s, checkName ((Given.lookup "global_name" pairs).getD (.data (.str usualName))) = .ok s := by
  simp only [checkName_eq_ok]
  exact forall_given ⟨usualName, rfl, usableName_usualName⟩

/-- What is given for the pattern is accepted. -/
def Patterned (language : PatternLanguage) (pairs : List (Given × Given)) : Prop :=
  ∀ g, Given.lookup "exclude_pattern" pairs = some g → Readable language g

theorem patterned_iff : Patterned language pairs ↔
    Readable language ((Given.lookup "exclude_pattern" pairs).getD (.data (.str usualPattern))) :=
  forall_given readable_usual

/-- Settings are accepted if their name and their pattern are. -/
theorem ofSettings_eq_ok {c : Config} :
    ofSettings language pairs = .ok c ↔ Named pairs ∧ Patterned language pairs ∧ Describes pairs c := by
  rw [describes_iff, named_iff, patterned_iff]
  constructor
  · intro h
    obtain ⟨name, hname, h⟩ := except_bind_eq_ok.1 h
    obtain ⟨pattern, hpattern, h⟩ := except_bind_eq_ok.1 h
    cases h
    obtain ⟨hreadable, hgiven⟩ := checkPattern_eq_ok.1 hpattern
    exact ⟨⟨name, hname⟩, hreadable, (checkName_eq_ok.1 hname).1.symm, rfl, rfl, rfl, hgiven⟩
  · rintro ⟨⟨name, hname⟩, hreadable, hnamed, hstatements, hbranches, hfunctions, hgiven⟩
    have hcheck := (checkName_eq_ok.1 hname).1
    rw [← hnamed] at hcheck
    cases hcheck
    refine except_bind_eq_ok.2 ⟨_, hname, except_bind_eq_ok.2 ⟨_, checkPattern_eq_ok.2 ⟨hreadable, hgiven⟩, ?_⟩⟩
    simp only [← hstatements, ← hbranches, ← hfunctions]
    rfl

theorem exists_ofSettings (hnamed : Named pairs) (hpatterned : Patterned language pairs) :
    ∃ c, ofSettings language pairs = .ok c := by
  obtain ⟨s, hs⟩ := named_iff.1 hnamed
  obtain ⟨o, ho⟩ := exists_checkPattern (patterned_iff.1 hpatterned)
  exact ⟨_, except_bind_eq_ok.2 ⟨s, hs, except_bind_eq_ok.2 ⟨o, ho, rfl⟩⟩⟩

/-- Settings fail in an unforeseen way only by a pattern that is not read. -/
theorem isOwn_of_ofSettings (h : ofSettings language pairs = .error e) : e.isOwn = false ↔
      Named pairs ∧ ∃ g, Given.lookup "exclude_pattern" pairs = some g ∧ UnreadPattern language g := by
  rw [named_iff]
  change (checkName ((Given.lookup "global_name" pairs).getD (.data (.str usualName))) >>= fun _ ↦
    checkPattern language ((Given.lookup "exclude_pattern" pairs).getD (.data (.str usualPattern))) >>= fun _ ↦
      pure _) = .error e at h
  cases hname : checkName ((Given.lookup "global_name" pairs).getD (.data (.str usualName))) with
  | error cause =>
    rw [hname] at h
    cases h
    simp [isOwn_of_checkName hname]
  | ok s =>
    rw [hname] at h
    cases hlookup : Given.lookup "exclude_pattern" pairs with
    | none =>
      obtain ⟨o, ho⟩ := exists_checkPattern (@readable_usual language)
      rw [hlookup, Option.getD_none, ho] at h
      cases h
    | some g =>
      rw [hlookup, Option.getD_some] at h
      cases hpattern : checkPattern language g with
      | ok o =>
        rw [hpattern] at h
        cases h
      | error cause =>
        rw [hpattern] at h
        cases h
        simp [isOwn_of_checkPattern hpattern]

/-! ## Maps -/

theorem unknown_eq_nil :
    (pairs.filter fun p ↦ !isField p.1) = [] ↔ ∀ p ∈ pairs, ∃ name ∈ fieldNames, p.1 = .data (.str name) := by
  rw [List.filter_eq_nil_iff]
  refine forall₂_congr fun p _ ↦ ?_
  rw [← isField_eq_true]
  simp

/-- What loading a map comes to if all its keys and switches are in order. -/
theorem load_of_known (hknown : ∀ p ∈ pairs, ∃ name ∈ fieldNames, p.1 = .data (.str name))
    (hswitches : ∀ name ∈ switches, ∀ g, Given.lookup name pairs = some g → ∃ b, g = .data (.bool b)) :
    load language (some pairs) = ofSettings language pairs := by
  rw [load, unknown_eq_nil.2 hknown]
  simp only
  rw [badSwitch?_eq_none.2 hswitches]

/-- Unknown keys are reported as such unless one of them is no text. -/
theorem load_of_unknown (h : ¬∀ p ∈ pairs, ∃ name ∈ fieldNames, p.1 = .data (.str name)) :
    ∃ e, load language (some pairs) = .error e ∧ (e.isOwn = true ↔ ∀ p ∈ pairs, ∃ s, p.1 = .data (.str s)) := by
  have hne := mt unknown_eq_nil.1 h
  refine ⟨unknownKeys ((pairs.filter fun p ↦ !isField p.1).map (·.1)), ?_, ?_⟩
  · rw [load]
    split
    next hnil => exact absurd hnil hne
    next => rfl
  · rw [isOwn_unknownKeys (by simpa using hne), List.forall_mem_map]
    refine ⟨fun htexts p hp ↦ ?_, fun htexts p hp ↦ htexts p (List.mem_filter.1 hp).1⟩
    cases hfield : isField p.1 with
    | true =>
      obtain ⟨name, -, hname⟩ := isField_eq_true.1 hfield
      exact ⟨name, hname⟩
    | false => exact htexts p (List.mem_filter.2 ⟨hp, by rw [hfield]; rfl⟩)

theorem load_of_badSwitch (hknown : ∀ p ∈ pairs, ∃ name ∈ fieldNames, p.1 = .data (.str name))
    (h : ¬∀ name ∈ switches, ∀ g, Given.lookup name pairs = some g → ∃ b, g = .data (.bool b)) :
    ∃ e, load language (some pairs) = .error e ∧ e.isOwn = true := by
  obtain ⟨name, hname⟩ := Option.ne_none_iff_exists'.1 (mt badSwitch?_eq_none.1 h)
  refine ⟨.notBoolean name, ?_, rfl⟩
  rw [load, unknown_eq_nil.2 hknown]
  simp only
  rw [hname]

/-- What is accepted is a valid map or one with a pattern of bytes. -/
theorem sound_and_patterned_iff :
    Sound pairs ∧ Patterned language pairs ↔ Valid language pairs ∨ Overlooked language pairs := by
  constructor
  · rintro ⟨hsound, hpatterned⟩
    cases hlookup : Given.lookup "exclude_pattern" pairs with
    | none => exact .inl ⟨hsound, by simp [hlookup]⟩
    | some g =>
      cases hpatterned g hlookup with
      | pattern h =>
        refine .inl ⟨hsound, fun g' hg' ↦ ?_⟩
        rw [hlookup] at hg'
        cases hg'
        exact h
      | bytes h => exact .inr ⟨hsound, _, hlookup, h⟩
  · rintro (hvalid | ⟨hsound, b, hb, hread⟩)
    · exact ⟨hvalid.toSound, fun g hg ↦ .pattern (hvalid.patterned g hg)⟩
    · refine ⟨hsound, fun g hg ↦ ?_⟩
      rw [hb] at hg
      cases hg
      exact .bytes hread

/-- What is loaded is valid or overlooked, and described by what was given. -/
theorem load_eq_ok {c : Config} :
    load language (some pairs) = .ok c ↔ (Valid language pairs ∨ Overlooked language pairs) ∧ Describes pairs c := by
  rw [← sound_and_patterned_iff]
  constructor
  · intro h
    by_cases hknown : ∀ p ∈ pairs, ∃ name ∈ fieldNames, p.1 = .data (.str name)
    · by_cases hswitches : ∀ name ∈ switches, ∀ g, Given.lookup name pairs = some g → ∃ b, g = .data (.bool b)
      · rw [load_of_known hknown hswitches] at h
        obtain ⟨hnamed, hpatterned, hdescribes⟩ := ofSettings_eq_ok.1 h
        exact ⟨⟨⟨hknown, hswitches, hnamed⟩, hpatterned⟩, hdescribes⟩
      · obtain ⟨e, he, -⟩ := load_of_badSwitch hknown hswitches
        rw [he] at h
        cases h
    · obtain ⟨e, he, -⟩ := load_of_unknown hknown
      rw [he] at h
      cases h
  · rintro ⟨⟨hsound, hpatterned⟩, hdescribes⟩
    rw [load_of_known hsound.known hsound.switches]
    exact ofSettings_eq_ok.2 ⟨hsound.named, hpatterned, hdescribes⟩

theorem exists_load (h : Valid language pairs ∨ Overlooked language pairs) :
    ∃ c, load language (some pairs) = .ok c := by
  obtain ⟨hsound, hpatterned⟩ := sound_and_patterned_iff.2 h
  rw [load_of_known hsound.known hsound.switches]
  exact exists_ofSettings hsound.named hpatterned

/-- A map that is refused is refused as a wrong configuration unless it is unforeseen. -/
theorem isOwn_of_load (h : load language (some pairs) = .error e) : e.isOwn = false ↔ Unforeseen language pairs := by
  by_cases hknown : ∀ p ∈ pairs, ∃ name ∈ fieldNames, p.1 = .data (.str name)
  · have hkeys : ¬∃ p ∈ pairs, ∀ s, p.1 ≠ .data (.str s) := by
      rintro ⟨p, hp, hno⟩
      obtain ⟨name, -, hname⟩ := hknown p hp
      exact hno name hname
    by_cases hswitches : ∀ name ∈ switches, ∀ g, Given.lookup name pairs = some g → ∃ b, g = .data (.bool b)
    · rw [load_of_known hknown hswitches] at h
      rw [isOwn_of_ofSettings h]
      constructor
      · rintro ⟨hnamed, g, hg, hunread⟩
        exact .pattern ⟨hknown, hswitches, hnamed⟩ hg hunread
      · rintro (⟨hp, hno⟩ | ⟨hsound, hg, hunread⟩)
        · exact absurd ⟨_, hp, hno⟩ hkeys
        · exact ⟨hsound.named, _, hg, hunread⟩
    · obtain ⟨e', he', hown⟩ := @load_of_badSwitch language pairs hknown hswitches
      rw [he'] at h
      cases h
      refine ⟨fun hfalse ↦ by simp [hown] at hfalse, ?_⟩
      rintro (⟨hp, hno⟩ | ⟨hsound, -, -⟩)
      · exact absurd ⟨_, hp, hno⟩ hkeys
      · exact absurd hsound.switches hswitches
  · obtain ⟨e', he', hown⟩ := @load_of_unknown language pairs hknown
    rw [he'] at h
    cases h
    rw [← Bool.not_eq_true, hown]
    constructor
    · intro htexts
      simp only [Classical.not_forall, not_exists] at htexts
      obtain ⟨p, hp, hno⟩ := htexts
      exact .key hp hno
    · rintro (⟨hp, hno⟩ | ⟨hsound, -, -⟩) htexts
      · obtain ⟨s, hs⟩ := htexts _ hp
        exact hno s hs
      · exact hknown hsound.known

/-- When loading fails with an error of its own. -/
theorem exists_isOwn_iff : (∃ e, load language (some pairs) = .error e ∧ e.isOwn = true) ↔
    ¬(Valid language pairs ∨ Overlooked language pairs ∨ Unforeseen language pairs) := by
  rw [← or_assoc, not_or]
  constructor
  · rintro ⟨e, he, hown⟩
    refine ⟨fun haccepted ↦ ?_, fun hunforeseen ↦ ?_⟩
    · obtain ⟨c, hc⟩ := exists_load haccepted
      rw [he] at hc
      cases hc
    · rw [(isOwn_of_load he).2 hunforeseen] at hown
      cases hown
  · rintro ⟨haccepted, hunforeseen⟩
    cases h : load language (some pairs) with
    | ok c => exact absurd (load_eq_ok.1 h).1 haccepted
    | error e => exact ⟨e, rfl, by simpa using mt (isOwn_of_load h).1 hunforeseen⟩

/-- What is not even read is not accepted. -/
theorem not_readable_of_unreadPattern (h : UnreadPattern language g) : ¬Readable language g := by
  intro hreadable
  obtain ⟨o, ho⟩ := exists_checkPattern hreadable
  obtain ⟨-, rfl⟩ := checkPattern_eq_ok.1 ho
  match o, h, hreadable with
  | none, .other hnull _ _, _ => exact hnull rfl
  | some (.text s), .other _ htext _, _ => exact htext s rfl
  | some (.text s), .text h, .pattern (.text hs) => simp [hs] at h
  | some (.bytes b), .other _ _ hbytes, _ => exact hbytes b rfl
  | some (.bytes b), .bytes h, .bytes hb => simp [hb] at h

/-- When loading fails with any other error. -/
theorem exists_not_isOwn_iff :
    (∃ e, load language (some pairs) = .error e ∧ e.isOwn = false) ↔ Unforeseen language pairs := by
  constructor
  · rintro ⟨e, he, hown⟩
    exact (isOwn_of_load he).1 hown
  · intro hunforeseen
    cases h : load language (some pairs) with
    | error e => exact ⟨e, rfl, (isOwn_of_load h).2 hunforeseen⟩
    | ok c =>
      obtain ⟨hsound, hpatterned⟩ := sound_and_patterned_iff.2 (load_eq_ok.1 h).1
      cases hunforeseen with
      | key hp hno =>
        obtain ⟨name, -, hname⟩ := hsound.known _ hp
        exact absurd hname (hno name)
      | pattern _ hg hunread => exact absurd (hpatterned _ hg) (not_readable_of_unreadPattern hunread)

end Config

end Coverage
