import Mathlib.Data.List.Basic
import Coverage.Proofs.Number.Rounding
import Coverage.Report.Data

/-!
# When a report says one hundred percent

A report gives the share of covered units of a kind in percent, with two places. Three roundings lie between the counts
and this number: of the quotient, of its product with a hundred, and of the two places. What they make of a share next
to one is decided by the quotient alone: the least quotient that ends up as a hundred is `9006748894778255 / 2 ^ 53`,
the number nearest to `19999 / 20000`. So a single unit in twenty thousand that was never executed does not show in the
percentage, and `hasGaps` is the only sign of it.
-/

namespace Coverage

open Binary64

/-- The percentage of covered units with the places that a report gives. -/
def Total.reported? (t : Total) : Option Binary64 := t.percentage?.map (Decimal.round percentPlaces)

theorem Total.toDatum?_eq (number : Binary64 → Datum) (t : Total) :
    t.toDatum? number = t.reported?.map fun p ↦
      .object [("kind", .str t.kind.name), ("total", .int t.total), ("covered", .int t.covered),
        ("coverage_percentage", number p)] := by
  rw [Total.toDatum?, Total.reported?, Option.map_map]
  rfl

/-! ## Hundredths -/

section Hundredths

theorem ofInt_hundred : Binary64.ofInt 100 = .finite false (100 * 2 ^ 46) (-46) := by decide +kernel

theorem quotient_pos (m : Nat) (e : Int) : 0 < (quotient m e).2 := by
  rw [quotient]
  split
  · exact Nat.one_pos
  · exact Nat.two_pow_pos _

theorem ofDecimal_hundredths {k : Nat} (hk : k ≠ 0) : ofDecimal false k (-2) = ofQuotient false k 100 := by
  have hrange : ¬(k.log2 : Int) + 4 * -2 < -4000 := by omega
  rw [ofDecimal, if_neg hk, if_neg (by decide), if_neg hrange, if_neg (by decide)]
  rfl

/-- Of the numbers of hundredths up to ten thousand, only the last is a hundred. -/
theorem ofDecimal_eq_hundred_iff {k : Nat} (hk : k ≤ 10000) : ofDecimal false k (-2) = .ofInt 100 ↔ k = 10000 := by
  rw [ofInt_hundred]
  constructor
  · intro h
    rcases Nat.eq_zero_or_pos k with rfl | hpos
    · cases h
    rw [ofDecimal_hundredths (Nat.ne_of_gt hpos)] at h
    rcases Nat.lt_or_ge k 6400 with hsmall | hlarge
    · have hlt : k * 2 < 2 ^ 7 * 100 := by omega
      obtain ⟨m, e, heq, hle⟩ := ofQuotient_of_lt false (by decide) (Nat.ne_of_gt hpos) (by decide) hlt
      rw [heq] at h
      cases h
      exact absurd hle (by decide +kernel)
    · rw [ofQuotient_of_exponent false (Nat.ne_of_gt hpos) (by decide)
        (exponentFor_eq (a := 46) (Nat.ne_of_gt hpos) (by decide) (by decide) (by decide) (by omega) (by omega))] at h
      have hround := roundDiv_le (k * 2 ^ 46) 100
      split at h
      next => cases h
      next =>
        have hmantissa := (Binary64.finite.inj h).2.1
        omega
  · rintro rfl
    decide +kernel

/-- The number has this many hundredths, rounded. -/
inductive HasHundredths : Binary64 → Nat → Prop
  | intro {m e} : HasHundredths (.finite false m e) (Decimal.scaledRound percentPlaces m e)

theorem HasHundredths.round_eq {x : Binary64} {k : Nat} (h : HasHundredths x k) :
    Decimal.round percentPlaces x = ofDecimal false k (-2) := by
  cases h
  rfl

theorem mulNat_finite (s : Bool) (m : Nat) (e : Int) (k : Nat) :
    (Binary64.finite s m e).mulNat k = ofQuotient s ((quotient m e).1 * k) (quotient m e).2 := rfl

theorem scaledRound_eq (m : Nat) (e : Int) :
    Decimal.scaledRound percentPlaces m e = roundDiv ((quotient m e).1 * 100) (quotient m e).2 := rfl

/-- What is below 64 has far less than ten thousand hundredths. -/
theorem hasHundredths_of_lt {num den : Nat} (hden : den ≠ 0) (h : num * 2 < 2 ^ 7 * den) :
    ∃ k < 10000, HasHundredths (ofQuotient false num den) k := by
  rcases Nat.eq_zero_or_pos num with rfl | hpos
  · have hzero : ofQuotient false 0 den = .finite false 0 minExponent := if_pos rfl
    have hnone : (quotient 0 minExponent).1 = 0 := rfl
    rw [hzero]
    refine ⟨_, ?_, .intro⟩
    rw [scaledRound_eq, hnone]
    have hpos := quotient_pos 0 minExponent
    exact Nat.lt_of_le_of_lt (roundDiv_le_of_lt (b := 1) (by omega)) (by decide)
  · obtain ⟨m, e, heq, hle⟩ := ofQuotient_of_lt false (by decide) (Nat.ne_of_gt hpos) hden h
    rw [heq]
    refine ⟨_, ?_, .intro⟩
    rw [scaledRound_eq]
    have hpos := quotient_pos m e
    exact Nat.lt_of_le_of_lt (roundDiv_le_of_lt (b := 6401) (by omega)) (by decide)

end Hundredths

/-! ## Percentages -/

section Percentages

/-- A quotient up to one half. -/
theorem hasHundredths_of_half {m : Nat} {e : Int} (h : (quotient m e).1 * 2 ≤ (quotient m e).2) :
    ∃ k < 10000, HasHundredths ((Binary64.finite false m e).mulNat 100) k := by
  have hpos := quotient_pos m e
  rw [mulNat_finite]
  exact hasHundredths_of_lt (Nat.ne_of_gt hpos) (by omega)

/-- A quotient below one, in units of `2 ^ -53`. -/
theorem hasHundredths_of_mantissa {m : Nat} (hm : m < 2 ^ 53) :
    ∃ k ≤ 10000, HasHundredths ((Binary64.finite false m (-53)).mulNat 100) k ∧ (k = 10000 ↔ 9006748894778255 ≤ m) := by
  have hquotient : quotient m (-53) = (m, 2 ^ 53) := rfl
  rw [mulNat_finite, hquotient]
  rcases Nat.lt_or_ge (m * 100) (2 ^ 59) with hsmall | hlarge
  · have hlt : m * 100 * 2 < 2 ^ 7 * 2 ^ 53 := by omega
    obtain ⟨k, hk, hhundredths⟩ := hasHundredths_of_lt (by decide) hlt
    exact ⟨k, Nat.le_of_lt hk, hhundredths, by omega⟩
  · have hexponent : exponentFor (m * 100) (2 ^ 53) = -(46 : Nat) :=
      exponentFor_eq (by omega) (by decide) (by decide) (by decide) (by omega) (by omega)
    obtain ⟨hbelow, habove⟩ := roundDiv_nearest (m * 100 * 2 ^ 46) (Nat.two_pow_pos 53)
    rw [ofQuotient_of_exponent false (by omega) (by decide) hexponent]
    generalize roundDiv (m * 100 * 2 ^ 46) (2 ^ 53) = p at hbelow habove
    rw [if_neg (by omega)]
    have hscaled : Decimal.scaledRound percentPlaces p (-(46 : Nat)) = roundDiv (p * 100) (2 ^ 46) := rfl
    obtain ⟨hbelow', habove'⟩ := roundDiv_nearest (p * 100) (Nat.two_pow_pos 46)
    -- Neither step ever meets a tie next to the threshold, so the nearest number is all there is to know.
    have hp : 7036522574045512 ≤ p ↔ 9006748894778255 ≤ m := by
      clear hbelow' habove' hscaled hexponent
      omega
    have hle : p ≤ 100 * 2 ^ 46 := by
      clear hbelow' habove' hscaled hexponent hp
      omega
    clear hbelow habove hexponent
    refine ⟨_, ?_, .intro, ?_⟩
    · rw [hscaled]
      clear hp
      omega
    · rw [hscaled, ← hp]
      clear hp
      omega

/-- The quotient of `c` and `t` as a number. Its product with a hundred has ten thousand hundredths if `c / t` is nearer
to one than to the number below `9006748894778255 / 2 ^ 53`. -/
theorem exists_hundredths {c t : Nat} (ht : 0 < t) (hc : c ≤ t) :
    ∃ m e, ofQuotient false c t = .finite false m e ∧ ∃ k ≤ 10000,
      HasHundredths ((Binary64.finite false m e).mulNat 100) k ∧
        (k = 10000 ↔ 18013497789556509 * t < 18014398509481984 * c) := by
  have hden : t ≠ 0 := Nat.ne_of_gt ht
  rcases Nat.eq_zero_or_pos c with rfl | hpos
  · obtain ⟨k, hk, hhundredths⟩ := hasHundredths_of_half (m := 0) (e := minExponent) (Nat.zero_le _)
    exact ⟨0, minExponent, if_pos rfl, k, Nat.le_of_lt hk, hhundredths, by omega⟩
  have hnum : c ≠ 0 := Nat.ne_of_gt hpos
  rcases Nat.lt_or_ge (c * 2) t with hsmall | hlarge
  · obtain ⟨m, e, heq, hle⟩ := ofQuotient_of_lt false (j := 0) (by decide) hnum hden (by omega)
    obtain ⟨k, hk, hhundredths⟩ := hasHundredths_of_half (m := m) (e := e) (by omega)
    exact ⟨m, e, heq, k, Nat.le_of_lt hk, hhundredths, by omega⟩
  rcases Nat.lt_or_ge c t with hless | hall
  · have hexponent : exponentFor c t = -(53 : Nat) :=
      exponentFor_eq hnum hden (by decide) (by decide) (by omega) (by omega)
    have hthreshold := le_roundDiv_iff (n := c * 2 ^ 53) (m := 9006748894778255) ht rfl
    have hbound : roundDiv (c * 2 ^ 53) t ≤ 2 ^ 53 := roundDiv_le_of_lt (by omega)
    rw [ofQuotient_of_exponent false hnum (by decide) hexponent]
    generalize roundDiv (c * 2 ^ 53) t = m at hthreshold hbound
    split
    next hcarry => exact ⟨_, _, rfl, 10000, Nat.le_refl _, .intro, by omega⟩
    next hcarry =>
      obtain ⟨k, hk, hhundredths, hiff⟩ := hasHundredths_of_mantissa (m := m) (by omega)
      exact ⟨m, _, rfl, k, hk, hhundredths, by omega⟩
  · obtain rfl : c = t := Nat.le_antisymm hc hall
    have hexponent : exponentFor c c = -(52 : Nat) :=
      exponentFor_eq hnum hden (by decide) (by decide) (by omega) (by omega)
    have hone : roundDiv (c * 2 ^ 52) c = 2 ^ 52 := by
      rw [roundDiv_eq, Nat.mul_mod_right, Nat.mul_div_cancel_left _ ht, if_pos (.inl ht)]
    rw [ofQuotient_of_exponent false hnum (by decide) hexponent, hone, if_neg (by decide)]
    exact ⟨_, _, rfl, 10000, Nat.le_refl _, .intro, by omega⟩

theorem divInts?_of_finite {c t m : Nat} {e : Int} (h : ofQuotient false c t = .finite false m e) :
    divInts? c t = some (.finite false m e) := by
  have hsign : (decide ((c : Int) < 0) != decide ((t : Int) < 0)) = false := by
    rw [decide_eq_false (by omega), decide_eq_false (by omega)]
    rfl
  rw [divInts?, hsign, Int.natAbs_natCast, Int.natAbs_natCast, h]

/-- Every total of natural numbers has a percentage. It is a hundred if all units are covered, or if the share of the
others is small enough. -/
theorem Total.exists_reported {c t : Nat} (kind : Kind) (hc : c ≤ t) :
    ∃ p, (Total.mk kind t c).reported? = some p ∧
      (p = .ofInt 100 ↔ c = t ∨ 18014398509481984 * (t - c) < 900719925475 * t) := by
  rcases Nat.eq_zero_or_pos t with rfl | ht
  · obtain rfl : c = 0 := Nat.le_zero.1 hc
    exact ⟨_, rfl, by decide +kernel⟩
  · obtain ⟨m, e, hquotient, k, hk, hhundredths, hiff⟩ := exists_hundredths ht hc
    have htotal : ¬(t : Int) = 0 := by omega
    refine ⟨ofDecimal false k (-2), ?_, ?_⟩
    · rw [Total.reported?, Total.percentage?, if_neg htotal, divInts?_of_finite hquotient, Option.map_some,
        Option.map_some, hhundredths.round_eq]
    · rw [ofDecimal_eq_hundred_iff hk, hiff]
      omega

end Percentages

/-! ## Reports -/

namespace Report

variable {r : Report} {k : Kind}

/-- How many units of a kind were never executed. -/
def gaps (r : Report) (k : Kind) : Nat := ((r.records k).filter fun x ↦ !x.covered).length

theorem gaps_add_covered (r : Report) (k : Kind) :
    r.gaps k + ((r.records k).filter (·.covered)).length = (r.records k).length := by
  rw [gaps, Nat.add_comm]
  exact (List.length_eq_length_filter_add _).symm

theorem gaps_eq_zero_iff : r.gaps k = 0 ↔ ∀ x ∈ r.records k, 0 < x.count := by
  simp [gaps, Record.covered]

/-- There are no gaps if none of the kinds has one. -/
theorem hasGaps_eq_false_iff : r.hasGaps = false ↔ ∀ k, r.gaps k = 0 := by
  simp only [gaps_eq_zero_iff]
  constructor
  · intro h k x hx
    have hmem : x ∈ r.allRecords := List.mem_flatMap.2 ⟨k, by cases k <;> decide, hx⟩
    simpa [Record.covered] using List.any_eq_false.1 h x hmem
  · intro h
    refine List.any_eq_false.2 fun x hx ↦ ?_
    obtain ⟨k, -, hmem⟩ := List.mem_flatMap.1 hx
    simpa [Record.covered] using h k x hmem

/-- The percentage that the report gives for a kind. -/
theorem exists_percentage (r : Report) (k : Kind) :
    ∃ p, (r.total k).reported? = some p ∧
      (p = .ofInt 100 ↔ r.gaps k = 0 ∨ 2 ^ 54 * r.gaps k < 900719925475 * (r.records k).length) := by
  have hsum := r.gaps_add_covered k
  obtain ⟨p, hp, hiff⟩ := Total.exists_reported k (List.length_filter_le (·.covered) (r.records k))
  exact ⟨p, hp, by rw [hiff]; omega⟩

/-- A report says one hundred percent of a kind if at most one in twenty thousand of its units was never executed:
exactly so up to fifty million gaps, and by the rounding of the quotient beyond. So with fewer than twenty thousand
units a hundred means that all of them were executed, and a report without gaps says a hundred of every kind. -/
theorem percentage_eq_hundred_iff (r : Report) :
    ∃ percentage : Kind → Binary64,
      (∀ number k, (r.total k).toDatum? number = some (.object [("kind", .str k.name),
        ("total", .int (r.records k).length), ("covered", .int ((r.records k).filter (·.covered)).length),
        ("coverage_percentage", number (percentage k))])) ∧
      (∀ k, percentage k = .ofInt 100 ↔ r.gaps k = 0 ∨ 2 ^ 54 * r.gaps k < 900719925475 * (r.records k).length) ∧
      (∀ k, r.gaps k ≤ 49995555 → (percentage k = .ofInt 100 ↔ 20000 * r.gaps k ≤ (r.records k).length)) ∧
      (∀ k, (r.records k).length < 20000 → (percentage k = .ofInt 100 ↔ ∀ x ∈ r.records k, 0 < x.count)) ∧
      (r.hasGaps = false → ∀ k, percentage k = .ofInt 100) ∧
      ((∀ k, (r.records k).length < 20000) → (r.hasGaps = false ↔ ∀ k, percentage k = .ofInt 100)) := by
  obtain ⟨percentage, hpercentage⟩ := Classical.axiomOfChoice r.exists_percentage
  have hiff := fun k ↦ (hpercentage k).2
  have hfew : ∀ k, (r.records k).length < 20000 → (percentage k = .ofInt 100 ↔ r.gaps k = 0) := by
    intro k hlength
    rw [hiff]
    omega
  refine ⟨percentage, ?_, hiff, ?_, ?_, ?_, ?_⟩
  · intro number k
    rw [Total.toDatum?_eq, (hpercentage k).1]
    rfl
  · intro k hgaps
    rw [hiff]
    omega
  · intro k hlength
    rw [hfew k hlength, gaps_eq_zero_iff]
  · intro h k
    exact (hiff k).2 (.inl (hasGaps_eq_false_iff.1 h k))
  · intro hlength
    rw [hasGaps_eq_false_iff]
    exact forall_congr' fun k ↦ (hfew k (hlength k)).symm

/-- A report on this many statements, all but one of them executed. -/
def allButOne (executed : Nat) : Report where
  filename := "module.py"
  statements := List.replicate executed ⟨"s1:0-1:5", ⟨1, 0, 1, 5⟩, 1⟩ ++ [⟨"s2:0-2:5", ⟨2, 0, 2, 5⟩, 0⟩]

section AllButOne

variable (executed : Nat)

theorem gaps_allButOne : (allButOne executed).gaps .statement = 1 := by
  simp [gaps, records, allButOne, Record.covered]

theorem length_allButOne : ((allButOne executed).records .statement).length = executed + 1 := by
  simp [records, allButOne]

theorem hasGaps_allButOne : (allButOne executed).hasGaps = true := by
  rw [← Bool.not_eq_false, hasGaps_eq_false_iff]
  intro h
  have hgap := gaps_allButOne executed
  rw [h] at hgap
  exact Nat.zero_ne_one hgap

end AllButOne

/-- One statement in twenty thousand does not show in the percentages. -/
theorem percentage_of_gap :
    (∃ x ∈ (allButOne 19999).records .statement, x.count = 0) ∧ (allButOne 19999).hasGaps = true ∧
      (∀ k, ((allButOne 19999).total k).reported? = some (.ofInt 100)) ∧
      ∀ number, ((allButOne 19999).total .statement).toDatum? number = some (.object [("kind", .str "statement"),
        ("total", .int 20000), ("covered", .int 19999), ("coverage_percentage", number (.ofInt 100))]) := by
  have hreported : ∀ k, ((allButOne 19999).total k).reported? = some (.ofInt 100) := by
    intro k
    obtain ⟨p, hp, hiff⟩ := exists_percentage (allButOne 19999) k
    rw [hp, hiff.2]
    cases k with
    | statement => exact .inr (by rw [gaps_allButOne, length_allButOne]; decide)
    | branch => exact .inl rfl
    | function => exact .inl rfl
  have hlength := length_allButOne 19999
  have hcovered : (((allButOne 19999).records .statement).filter (·.covered)).length = 19999 := by
    have hsum := gaps_add_covered (allButOne 19999) .statement
    rw [gaps_allButOne, hlength] at hsum
    omega
  refine ⟨⟨_, List.mem_append_right _ (List.mem_singleton_self _), rfl⟩, hasGaps_allButOne 19999, hreported, ?_⟩
  intro number
  rw [Total.toDatum?_eq, hreported, Option.map_some, total, hlength, hcovered]
  rfl

end Report

end Coverage
