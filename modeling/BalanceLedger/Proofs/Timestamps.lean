/-
# `Proofs.Timestamps` — instants survive being written

An instant is written as a date and a time of day in UTC, and read back as itself.
There are two halves to it.  The calendar turns a day number into a date and back
without losing a day, also before year 0 and on the last day of a leap year
(`toDays_ofDays`); and each part of the text is found by the reader where the writer has
put it.

The calendar is computed in cycles of 400 years with March as the first month.  `Parts`
is what a day number is made of in that count, and `exists_parts` is the only place
where the divisions are looked at; the date is read off the parts from there.

The parts of the text are proved from the inside out: two digits, a year in its three
forms, a date, a fraction of 0, 3, 6 or 9 places, a time of day.  `parse?_render` puts
them together.

The reader takes more than the writer writes.  Whatever it takes, it makes of it an
instant that can be written, by `writable_of_parse?`: in a representable year, and
within a leap second only at the end of a minute, because offsets are whole minutes.
-/
import BalanceLedger.Proofs.Numerals
import Mathlib.Tactic.IntervalCases

namespace BalanceLedger.Time

open Json.Parser (digitsValue)

/-! ## The calendar -/

namespace Date

/-- The year of a cycle that a day lies in has begun and is not over; the last day of a cycle or of
a leap year is the only one with number 365. -/
theorem yearOfCycle_spec {day year : Int} (h0 : 0 ≤ day) (h1 : day < cycleDays)
    (hyear : year = (day - day / 1460 + day / 36524 - day / 146096) / 365) :
    0 ≤ year ∧ year < 400 ∧ 0 ≤ day - (365 * year + year / 4 - year / 100) ∧
      day - (365 * year + year / 4 - year / 100) ≤ 365 ∧
      (day - (365 * year + year / 4 - year / 100) = 365 →
        (year + 1) % 4 = 0 ∧ ((year + 1) % 100 ≠ 0 ∨ year = 399)) := by
  rw [cycleDays] at h1
  by_cases hlast : day = 146096
  · subst hlast
    subst hyear
    decide
  · have hfour : day / 146096 = 0 := by omega
    rw [hfour] at hyear
    obtain ⟨century, hcentury⟩ : ∃ century, century = day / 36524 := ⟨_, rfl⟩
    obtain ⟨cycles, hcycles⟩ : ∃ cycles, cycles = day / 1460 := ⟨_, rfl⟩
    rw [← hcentury, ← hcycles] at hyear
    have hc0 : 0 ≤ century := by omega
    have hc3 : century ≤ 3 := by omega
    have hyears : 365 * year ≤ day - cycles + century ∧
        day - cycles + century ≤ 365 * year + 364 := by omega
    have hhundred : year / 100 = century := by omega
    have hlow : year / 4 ≤ cycles := by omega
    have hhigh : cycles ≤ year / 4 + 1 := by omega
    refine ⟨by omega, by omega, by omega, by omega, fun h => ?_⟩
    have hthree : year % 4 = 3 := by omega
    refine ⟨by omega, ?_⟩
    by_contra hnot
    push Not at hnot
    omega

/-- The parts of a day number: the cycle, the year of the cycle, the month counted from March on,
and the day of the month. -/
structure Parts (n cycle year month day : Int) : Prop where
  year_nonneg : 0 ≤ year
  year_lt : year < 400
  month_nonneg : 0 ≤ month
  month_le : month ≤ 11
  day_pos : 1 ≤ day
  day_le : (153 * month + 2) / 5 + day ≤ (153 * (month + 1) + 2) / 5
  /-- Month 11 is February. -/
  february : month = 11 →
    day ≤ 29 ∧ (day = 29 → (year + 1) % 4 = 0 ∧ ((year + 1) % 100 ≠ 0 ∨ year = 399))
  number : n = cycle * cycleDays + (365 * year + year / 4 - year / 100) +
    ((153 * month + 2) / 5 + day - 1) - epochOffset
  date : ofDays n =
    { year := if month < 10 then year + cycle * 400 else year + cycle * 400 + 1
      month := (if month < 10 then month + 3 else month - 9).toNat
      day := day.toNat }

theorem exists_parts (n : Int) : ∃ cycle year month day, Parts n cycle year month day := by
  obtain ⟨dayOfCycle, hday⟩ : ∃ d, d = (n + epochOffset) % cycleDays := ⟨_, rfl⟩
  have h0 : 0 ≤ dayOfCycle := hday ▸ Int.emod_nonneg _ (by decide)
  have h1 : dayOfCycle < cycleDays := hday ▸ Int.emod_lt_of_pos _ (by decide)
  have hsplit : (n + epochOffset) / cycleDays * cycleDays + dayOfCycle = n + epochOffset :=
    hday ▸ Int.ediv_mul_add_emod _ _
  obtain ⟨year, hyear⟩ : ∃ y, y = (dayOfCycle - dayOfCycle / 1460 + dayOfCycle / 36524 -
    dayOfCycle / 146096) / 365 := ⟨_, rfl⟩
  obtain ⟨hyear0, hyear1, hdoy0, hdoy1, hleap⟩ := yearOfCycle_spec h0 h1 hyear
  obtain ⟨dayOfYear, hdoy⟩ : ∃ d, d = dayOfCycle - (365 * year + year / 4 - year / 100) := ⟨_, rfl⟩
  rw [← hdoy] at hdoy0 hdoy1 hleap
  obtain ⟨month, hmonth⟩ : ∃ m, m = (5 * dayOfYear + 2) / 153 := ⟨_, rfl⟩
  refine ⟨(n + epochOffset) / cycleDays, year, month, dayOfYear - (153 * month + 2) / 5 + 1, ?_⟩
  refine ⟨hyear0, hyear1, by omega, by omega, by omega, by omega, ?_, by omega, ?_⟩
  · intro hfebruary
    exact ⟨by omega, fun hlast => hleap (by omega)⟩
  · rw [ofDays]
    simp only [← hday, ← hyear, ← hdoy, ← hmonth]
    by_cases hm : month < 10
    · simp only [hm, if_true]
      rw [if_neg (by omega)]
    · simp only [hm, if_false]
      rw [if_pos (by omega)]

/-- The date that `ofDays` makes of a day number has that number. -/
theorem toDays_ofDays (n : Int) : (ofDays n).toDays = n := by
  obtain ⟨cycle, year, month, day, h⟩ := exists_parts n
  have hyear0 := h.year_nonneg
  have hyear1 := h.year_lt
  have hday := h.day_pos
  have hmonth := h.month_nonneg
  rw [h.date, h.number]
  by_cases hm : month < 10
  · have hmarch : ¬ (month + 3).toNat ≤ 2 := by omega
    simp only [toDays, hm, if_true, hmarch, if_false]
    have hcycle : (year + cycle * 400) / 400 = cycle := by omega
    have hyear : (year + cycle * 400) % 400 = year := by omega
    rw [hcycle, hyear]
    omega
  · have hjanuary : (month - 9).toNat ≤ 2 := by have := h.month_le; omega
    simp only [toDays, hm, if_false, hjanuary, if_true]
    have hcycle : (year + cycle * 400 + 1 - 1) / 400 = cycle := by omega
    have hyear : (year + cycle * 400 + 1 - 1) % 400 = year := by omega
    rw [hcycle, hyear]
    omega

theorem isValid_ofDays (n : Int) : (ofDays n).isValid = true := by
  obtain ⟨cycle, year, month, day, h⟩ := exists_parts n
  have hday := h.day_pos
  have hle := h.day_le
  have hfebruary := h.february
  obtain ⟨m, rfl⟩ : ∃ m : Nat, month = m := ⟨month.toNat, by have := h.month_nonneg; omega⟩
  have hm : m ≤ 11 := by have := h.month_le; omega
  rw [h.date]
  simp only [isValid, Bool.and_eq_true, decide_eq_true_eq]
  -- the lengths of the months follow a formula in the reader of day numbers, and a table here
  interval_cases m
  all_goals simp [daysInMonth, isLeapYear]
  all_goals omega

theorem month_lt {d : Date} (h : d.isValid = true) : d.month < 100 := by
  simp only [isValid, Bool.and_eq_true, decide_eq_true_eq] at h
  omega

theorem day_lt {d : Date} (h : d.isValid = true) : d.day < 100 := by
  have hdays : daysInMonth d.year d.month ≤ 31 := by
    unfold daysInMonth
    split
    · split <;> decide
    all_goals decide
  simp only [isValid, Bool.and_eq_true, decide_eq_true_eq] at h
  omega

end Date

/-! ## The parts of the text -/

namespace Rfc3339

variable {rest : List Char}

theorem isBlank_of_isDigit {c : Char} (h : c.isDigit = true) : Text.isBlank c = false := by
  have hrange : 48 ≤ c.toNat ∧ c.toNat ≤ 57 := Char.isDigit_iff_toNat.mp h
  simp only [Text.isBlank, Bool.or_eq_false_iff, Bool.and_eq_false_iff, decide_eq_false_iff_not,
    beq_eq_false_iff_ne]
  omega

theorem skip_cons {c : Char} (h : Text.isBlank c = false) (rest : List Char) :
    skip (c :: rest) = c :: rest :=
  List.dropWhile_cons_of_neg (by rw [h]; exact Bool.false_ne_true)

theorem skip_paddedChars (width n : Nat) (rest : List Char) :
    skip (paddedChars width n ++ rest) = paddedChars width n ++ rest := by
  obtain ⟨c, ds, hds⟩ := List.exists_cons_of_ne_nil (paddedChars_ne_nil width n)
  have hdigit := allDigits_paddedChars width n c (by rw [hds]; exact List.mem_cons_self)
  rw [hds, List.cons_append, skip_cons (isBlank_of_isDigit hdigit)]

theorem mark?_cons {c : Char} (h : Text.isBlank c = false) (rest : List Char) :
    mark? c (c :: rest) = some rest := by
  rw [mark?, skip_cons h]
  exact if_pos rfl

theorem number?_two {n : Nat} (hn : n < 100) (rest : List Char) :
    number? 2 (skip (paddedChars 2 n ++ rest)) = some (n, rest) := by
  rw [skip_paddedChars, number?_paddedChars (by decide) hn]

def yearChars (year : Int) : List Char :=
  (renderYear year).toList

/-- A year is read in all three forms, if no digit follows it. -/
theorem year?_yearChars (year : Int) (hend : EndsNumeral rest) :
    year? (skip (yearChars year ++ rest)) = some (year, rest) := by
  have hsigned (n : Nat) : number? (paddedChars 4 n ++ rest).length (paddedChars 4 n ++ rest) =
      some (n, rest) := by
    rw [number?_append (allDigits_paddedChars 4 n) (paddedChars_ne_nil 4 n) (by simp) (.inr hend),
      digitsValue_paddedChars]
  unfold yearChars renderYear
  split
  · have hfits : year.toNat < 10 ^ 4 := by omega
    obtain ⟨c, ds, hds⟩ := List.exists_cons_of_ne_nil (paddedChars_ne_nil 4 year.toNat)
    have hdigit := allDigits_paddedChars 4 year.toNat c (by rw [hds]; exact List.mem_cons_self)
    have hread := number?_paddedChars (by decide) hfits rest
    rw [toList_padded, skip_paddedChars]
    rw [hds, List.cons_append] at hread ⊢
    unfold year?
    split
    · rename_i heq
      rw [(List.cons.inj heq).1] at hdigit
      exact absurd hdigit (by decide)
    · rename_i heq
      rw [(List.cons.inj heq).1] at hdigit
      exact absurd hdigit (by decide)
    · rw [hread, Option.map_some]
      simp only [Int.toNat_of_nonneg (by omega : 0 ≤ year)]
  · split
    · rw [String.toList_append, toList_padded]
      show year? (skip ('-' :: (paddedChars 4 year.natAbs ++ rest))) = some (year, rest)
      rw [skip_cons (by decide), year?, hsigned, Option.map_some]
      simp only [Option.some.injEq, Prod.mk.injEq, and_true]
      omega
    · rw [String.toList_append, toList_padded]
      show year? (skip ('+' :: (paddedChars 4 year.natAbs ++ rest))) = some (year, rest)
      rw [skip_cons (by decide), year?, hsigned, Option.map_some]
      simp only [Option.some.injEq, Prod.mk.injEq, and_true]
      omega

def dateChars (d : Date) : List Char :=
  yearChars d.year ++ '-' :: (paddedChars 2 d.month ++ '-' :: paddedChars 2 d.day)

theorem date?_dateChars {d : Date} (h : d.isValid = true) (rest : List Char) :
    date? (dateChars d ++ rest) = some (d, rest) := by
  have hyear := year?_yearChars d.year (.cons (by decide) (paddedChars 2 d.month ++ '-' ::
    (paddedChars 2 d.day ++ rest)) : EndsNumeral ('-' :: _))
  simp only [date?, dateChars, List.append_assoc, List.cons_append, hyear,
    mark?_cons (c := '-') (by decide), number?_two (Date.month_lt h), number?_two (Date.day_lt h),
    Option.bind_eq_bind, Option.bind_some]
  exact if_pos h

def fractionChars (nanos : Nat) : List Char :=
  (renderFraction nanos).toList

theorem fraction?_digits {ds : List Char} (hds : AllDigits ds) (hne : ds ≠ [])
    (hle : ds.length ≤ 9) (hend : EndsNumeral rest) :
    fraction? ('.' :: (ds ++ rest)) = some (digitsValue ds * 10 ^ (9 - ds.length), rest) := by
  have hsome : ds.isEmpty = false := List.isEmpty_eq_false_iff.mpr hne
  simp only [fraction?, hend.takeWhile_append hds, hend.dropWhile_append hds,
    List.take_of_length_le hle, hsome, digitsValue]
  rfl

theorem fraction?_paddedChars {places n : Nat} (hpos : 0 < places) (hle : places ≤ 9)
    (hn : n < 10 ^ places) (hend : EndsNumeral rest) :
    fraction? ('.' :: (paddedChars places n ++ rest)) = some (n * 10 ^ (9 - places), rest) := by
  have hlength := length_paddedChars hpos hn
  rw [fraction?_digits (allDigits_paddedChars places n) (paddedChars_ne_nil places n)
    (by omega) hend, digitsValue_paddedChars, hlength]

theorem fraction?_fractionChars {nanos : Nat} (hlt : nanos < 1000000000) (hend : EndsNumeral rest)
    (hpoint : rest.head? ≠ some '.') :
    fraction? (fractionChars nanos ++ rest) = some (nanos, rest) := by
  have hdots (places n : Nat) :
      ("." ++ padded places n).toList ++ rest = '.' :: (paddedChars places n ++ rest) := by
    rw [String.toList_append, toList_padded]
    rfl
  unfold fractionChars renderFraction
  split
  · rename_i hzero
    subst hzero
    cases rest with
    | nil => rfl
    | cons c rest =>
        show fraction? (c :: rest) = some (0, c :: rest)
        unfold fraction?
        split
        · rename_i heq
          rw [(List.cons.inj heq).1] at hpoint
          exact absurd rfl hpoint
        · rfl
  · split
    · rw [hdots, fraction?_paddedChars (by decide) (by decide) (by omega) hend]
      simp only [Option.some.injEq, Prod.mk.injEq, and_true]
      omega
    · split
      · rw [hdots, fraction?_paddedChars (by decide) (by decide) (by omega) hend]
        simp only [Option.some.injEq, Prod.mk.injEq, and_true]
        omega
      · rw [hdots, fraction?_paddedChars (by decide) (by decide) (by omega) hend]
        simp only [Option.some.injEq, Prod.mk.injEq, and_true]
        omega

/-- A time of day as characters: its second, and the nanoseconds from 10^9 on of a leap second. -/
def timeChars (second nanos : Nat) : List Char :=
  paddedChars 2 (second / 3600) ++ ':' :: (paddedChars 2 (second / 60 % 60) ++ ':' ::
    (paddedChars 2 (second % 60 + nanos / 1000000000) ++ fractionChars (nanos % 1000000000)))

/-- A time of day is read if a leap second ends its minute. -/
theorem time?_timeChars {second nanos : Nat} (hsecond : second < 86400)
    (hleap : nanos < 1000000000 ∨ nanos < 2000000000 ∧ second % 60 = 59)
    (hend : EndsNumeral rest) (hpoint : rest.head? ≠ some '.') :
    time? (timeChars second nanos ++ rest) = some ((second, nanos), rest) := by
  have hhour : second / 3600 < 100 := by omega
  have hminute : second / 60 % 60 < 100 := by omega
  have hsec : second % 60 + nanos / 1000000000 < 100 := by omega
  simp only [time?, timeChars, List.append_assoc, List.cons_append,
    mark?_cons (c := ':') (by decide), number?_two hhour, number?_two hminute, number?_two hsec,
    fraction?_fractionChars (Nat.mod_lt nanos (by decide)) hend hpoint,
    Option.bind_eq_bind, Option.bind_some]
  rw [if_pos (by omega)]
  by_cases hsixty : second % 60 + nanos / 1000000000 = 60
  · rw [if_pos hsixty]
    simp only [Option.some.injEq, Prod.mk.injEq, and_true]
    omega
  · rw [if_neg hsixty]
    simp only [Option.some.injEq, Prod.mk.injEq, and_true]
    omega

/-! ### What is taken -/

theorem fraction?_lt {cs : List Char} {nanos : Nat} (h : fraction? cs = some (nanos, rest)) :
    nanos < 1000000000 := by
  unfold fraction? at h
  split at h
  · rename_i digits
    obtain ⟨ds, hds⟩ : ∃ ds, ds = (digits.takeWhile Char.isDigit).take 9 := ⟨_, rfl⟩
    have hall : AllDigits ds := by
      intro c hc
      rw [hds] at hc
      exact List.all_eq_true.mp List.all_takeWhile c (List.mem_of_mem_take hc)
    have hlength : ds.length ≤ 9 := by
      rw [hds]
      exact List.length_take_le 9 _
    simp only [← hds] at h
    split at h
    · exact absurd h (by simp)
    · obtain ⟨rfl, -⟩ := Prod.mk.inj (Option.some.inj h)
      calc digitsValue ds * 10 ^ (9 - ds.length)
          < 10 ^ ds.length * 10 ^ (9 - ds.length) :=
            Nat.mul_lt_mul_of_pos_right (digitsValue_lt hall) (by positivity)
        _ = 10 ^ 9 := by rw [← Nat.pow_add, Nat.add_sub_cancel' hlength]
  · obtain ⟨rfl, -⟩ := Prod.mk.inj (Option.some.inj h)
    decide

theorem time?_leap {cs : List Char} {second nanos : Nat}
    (h : time? cs = some ((second, nanos), rest)) :
    nanos < 1000000000 ∨ second % 60 = 59 := by
  simp only [time?, Option.bind_eq_bind, Option.bind_eq_some_iff] at h
  obtain ⟨⟨hour, _⟩, -, _, -, ⟨minute, _⟩, -, _, -, ⟨sec, _⟩, -, ⟨fraction, _⟩, hfraction, h⟩ := h
  have hlt := fraction?_lt hfraction
  split at h
  · split at h
    · obtain ⟨hpair, -⟩ := Prod.mk.inj (Option.some.inj h)
      obtain ⟨rfl, rfl⟩ := Prod.mk.inj hpair
      exact .inr (by omega)
    · obtain ⟨hpair, -⟩ := Prod.mk.inj (Option.some.inj h)
      obtain ⟨rfl, rfl⟩ := Prod.mk.inj hpair
      exact .inl hlt
  · exact absurd h (by simp)

theorem offsetSize?_minutes {cs : List Char} {n : Nat} (h : offsetSize? cs = some (n, rest)) :
    n % 60 = 0 := by
  simp only [offsetSize?, Option.bind_eq_bind, Option.bind_eq_some_iff] at h
  obtain ⟨⟨hours, _⟩, -, ⟨minutes, _⟩, -, h⟩ := h
  split at h
  · obtain ⟨rfl, -⟩ := Prod.mk.inj (Option.some.inj h)
    omega
  · exact absurd h (by simp)

theorem offset?_minutes {cs : List Char} {offset : Int} (h : offset? cs = some (offset, rest)) :
    offset % 60 = 0 := by
  -- a sign makes no difference
  have hsigned : ∀ (sign : Nat → Int) {tail : List Char}, (∀ n, n % 60 = 0 → sign n % 60 = 0) →
      ((offsetSize? tail).map fun x => (sign x.1, x.2)) = some (offset, rest) →
      offset % 60 = 0 := by
    intro sign tail hsign h
    obtain ⟨⟨n, _⟩, hn, heq⟩ := Option.map_eq_some_iff.mp h
    obtain ⟨rfl, -⟩ := Prod.mk.inj heq
    exact hsign n (offsetSize?_minutes hn)
  unfold offset? at h
  split at h
  · obtain ⟨rfl, -⟩ := Prod.mk.inj (Option.some.inj h)
    rfl
  · split at h
    · obtain ⟨rfl, -⟩ := Prod.mk.inj (Option.some.inj h)
      rfl
    · obtain ⟨rfl, -⟩ := Prod.mk.inj (Option.some.inj h)
      rfl
    · exact hsigned (fun n => n) (fun n hn => by omega) h
    · exact hsigned (fun n => -n) (fun n hn => by omega) h
    · exact hsigned (fun n => -n) (fun n hn => by omega) h
    · exact absurd h (by simp)

end Rfc3339

/-! ## Instants -/

namespace Instant

open Rfc3339

/-- An instant that can be written: its year is representable, and it is within a leap second only
at the end of a minute. -/
structure Writable (t : Instant) : Prop where
  inRange : t.inRange = true
  leap : t.nanos < 1000000000 ∨ t.seconds % 60 = 59

theorem toList_render (t : Instant) :
    t.render.toList = dateChars t.date ++
      'T' :: (timeChars (t.seconds % 86400).toNat t.nanos ++ ['Z']) := by
  simp only [render, renderDate, renderTime, String.toList_append, toList_padded, dateChars,
    yearChars, timeChars, fractionChars, List.append_assoc, List.cons_append]
  rfl

/-- An instant is read as what it was written from. -/
theorem parse?_render {t : Instant} (h : t.Writable) : parse? t.render = some t := by
  have hsecond : (t.seconds % 86400).toNat < 86400 := by omega
  have hleap : t.nanos < 1000000000 ∨
      t.nanos < 2000000000 ∧ (t.seconds % 86400).toNat % 60 = 59 := by
    have hnanos := t.nanos_lt
    have hends := h.leap
    omega
  have htime := time?_timeChars hsecond hleap (.cons (by decide) [] : EndsNumeral ['Z'])
    (by decide)
  have hdate := date?_dateChars (d := t.date) (Date.isValid_ofDays _)
    ('T' :: (timeChars (t.seconds % 86400).toNat t.nanos ++ ['Z']))
  have hoffset : offset? (skip ['Z']) = some (0, []) := by decide
  have hwall : t.date.toDays * 86400 + ((t.seconds % 86400).toNat : Int) = t.seconds := by
    rw [date, Date.toDays_ofDays]
    omega
  have hhere (hlt : t.nanos < 2000000000) : (⟨t.seconds, t.nanos, hlt⟩ : Instant) = t := rfl
  rw [parse?, toList_render]
  simp only [parseChars?, hdate, htime, hoffset, hwall, Option.bind_eq_bind, Option.bind_some,
    isSeparator, decide_true, Bool.true_or, if_true, Int.sub_zero]
  rw [if_pos (by decide), dif_pos t.nanos_lt, hhere, h.inRange]
  rfl

/-- What is read as an instant is `Writable`. -/
theorem writable_of_parse? {s : String} {t : Instant} (h : parse? s = some t) : t.Writable := by
  simp only [parse?, parseChars?, Option.bind_eq_bind] at h
  obtain ⟨⟨date, cs⟩, -, h⟩ := Option.bind_eq_some_iff.mp h
  split at h
  · split at h
    · simp only [Option.bind_some, Option.bind_eq_some_iff] at h
      obtain ⟨⟨⟨second, nanos⟩, _⟩, htime, ⟨offset, _⟩, hoffset, h⟩ := h
      have hleap := time?_leap htime
      have hminutes := offset?_minutes hoffset
      split at h
      · split at h
        · split at h
          · rename_i hrange
            obtain rfl := Option.some.inj h
            refine ⟨(Bool.and_eq_true_iff.mp hrange).1, ?_⟩
            rcases hleap with hleap | hleap
            · exact .inl hleap
            · refine .inr ?_
              show (date.toDays * 86400 + (second : Int) - offset) % 60 = 59
              omega
          · exact absurd h (by simp)
        · exact absurd h (by simp)
      · exact absurd h (by simp)
    · exact absurd h (by simp)
  · exact absurd h (by simp)

theorem ofJson_toJson {t : Instant} (h : t.Writable) : ofJson t.toJson = .ok t := by
  simp only [toJson, ofJson, parse?_render h, Option.elim_some]

theorem writable_of_ofJson {v : Json} {t : Instant} (h : ofJson v = .ok t) : t.Writable := by
  cases v with
  | str s =>
      cases hs : parse? s with
      | some t' =>
          simp only [ofJson, hs, Option.elim_some, Except.ok.injEq] at h
          exact h ▸ writable_of_parse? hs
      | none => simp [ofJson, hs] at h
  | _ => exact absurd h (by simp [ofJson])

end Instant

end BalanceLedger.Time
