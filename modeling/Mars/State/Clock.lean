import Mars.Core.Calendar
import Mars.Core.FixedWidth

/-! # The instant a container was created

A record says when its container was made, as a date and a time of day in UTC.
Arithmetic is that of `i64`.
-/

namespace Mars.Clock
open Calendar FixedWidth

/-! ## Seconds to a date -/

/-- The result of an operation on `i64`; without one it has overflowed. -/
def i64 (x : Int) : Option Int := if -2 ^ 63 ≤ x ∧ x < 2 ^ 63 then some x else none

def add (a b : Int) : Option Int := i64 (a + b)
def sub (a b : Int) : Option Int := i64 (a - b)
def mul (a b : Int) : Option Int := i64 (a * b)

/-- `as u32`; without a result the cast has truncated. -/
def asU32 (x : Int) : Option Nat := if 0 ≤ x ∧ x < 2 ^ 32 then some x.toNat else none

/-- Year, month, day, hour, minute and second. -/
def civilFromUnix (secs : Int64) : Option (Int × Nat × Nat × Nat × Nat × Nat) := do
  let days := secs.toInt / 86400
  let rem := secs.toInt % 86400
  let z ← add days 719468
  let era := z / 146097
  let doe := z % 146097
  let yoe := (← sub (← add (← sub doe (doe.tdiv 1460)) (doe.tdiv 36524)) (doe.tdiv 146096)).tdiv 365
  let y ← add yoe (← mul era 400)
  let doy ← sub doe (← sub (← add (← mul 365 yoe) (yoe.tdiv 4)) (yoe.tdiv 100))
  let mp := (← add (← mul 5 doy) 2).tdiv 153
  let d ← add (← sub doy ((← add (← mul 153 mp) 2).tdiv 5)) 1
  let m ← (if mp < 10 then add mp 3 else sub mp 9)
  let year ← (if m ≤ 2 then add y 1 else some y)
  pure (year, ← asU32 m, ← asU32 d, ← asU32 (rem.tdiv 3600), ← asU32 ((rem.tmod 3600).tdiv 60),
    ← asU32 (rem.tmod 60))

example : civilFromUnix 1000000000 = some (2001, 9, 9, 1, 46, 40) := by decide

/-! ## The date is the right one -/

theorem bind_of_eq {α β : Type} {x : Option α} {a : α} {f : α → Option β} (h : x = some a) :
    (x >>= f) = f a := by
  rw [h]
  rfl

theorem add_eq {a b r : Int} (h : a + b = r) (hmin : -2 ^ 63 ≤ r) (hmax : r < 2 ^ 63) :
    add a b = some r := by
  rw [add, i64, h, if_pos ⟨hmin, hmax⟩]

theorem sub_eq {a b r : Int} (h : a - b = r) (hmin : -2 ^ 63 ≤ r) (hmax : r < 2 ^ 63) :
    sub a b = some r := by
  rw [sub, i64, h, if_pos ⟨hmin, hmax⟩]

theorem mul_eq {a b r : Int} (h : a * b = r) (hmin : -2 ^ 63 ≤ r) (hmax : r < 2 ^ 63) :
    mul a b = some r := by
  rw [mul, i64, h, if_pos ⟨hmin, hmax⟩]

theorem asU32_eq {x : Int} (hmin : 0 ≤ x) (hmax : x < 2 ^ 32) : asU32 x = some x.toNat := by
  rw [asU32, if_pos ⟨hmin, hmax⟩]

/-- The months from March on are those of the year, then come two of the next. -/
theorem month_eq (year : Int) {mp : Nat} (h : mp < 12) :
    (if (mp : Int) < 10 then add mp 3 else sub mp 9) = some ((fromMarch year mp).2 : Int) := by
  unfold fromMarch
  split
  next hten =>
    have hlater : (mp : Int) + 3 = (mp + 3 : Nat) := by omega
    rw [if_pos (by omega)]
    exact add_eq hlater (by omega) (by omega)
  next hten =>
    have hearlier : (mp : Int) - 9 = (mp - 9 : Nat) := by omega
    rw [if_neg (by omega)]
    exact sub_eq hearlier (by omega) (by omega)

theorem year_eq (year : Int) {mp : Nat} (h : mp < 12) (hmin : -2 ^ 63 ≤ year)
    (hmax : year < 2 ^ 63 - 1) :
    (if ((fromMarch year mp).2 : Int) ≤ 2 then add year 1 else some year) =
      some (fromMarch year mp).1 := by
  unfold fromMarch
  split
  next hten => rw [if_neg (by omega)]
  next hten => rw [if_pos (by omega), add_eq rfl (by omega) (by omega)]

theorem toInt_bounds (secs : Int64) : -2 ^ 63 ≤ secs.toInt ∧ secs.toInt < 2 ^ 63 :=
  ⟨Int64.le_toInt secs, Int64.toInt_lt secs⟩

/-- A day of a cycle: the century, the four years and the year in it, and the day. -/
structure Place (doe c q k t : Int) : Prop where
  day : doe = 36524 * c + 1461 * q + 365 * k + t
  century : 0 ≤ c ∧ c ≤ 3
  four : 0 ≤ q ∧ q ≤ 24
  year : 0 ≤ k ∧ k ≤ 3
  left : 0 ≤ t ∧ t ≤ 365
  leap : t = 365 → k = 3 ∧ (q = 24 → c = 3)

section place
variable {doe c q k t : Int}

theorem Place.yearOfCycle (h : Place doe c q k t) :
    (doe - doe / 1460 + doe / 36524 - doe / 146096) / 365 = 100 * c + 4 * q + k := by
  obtain ⟨hday, hc, hq, hk, ht, hleap⟩ := h
  have hcenturies : doe / 36524 - doe / 146096 = c := by
    by_cases hend : doe = 146096
    · omega
    · have hrest : 0 ≤ 1461 * q + 365 * k + t ∧ 1461 * q + 365 * k + t < 36524 := by omega
      have hcentury : doe / 36524 = c := by omega
      omega
  -- a day is taken off for each 1460, and in the last year for one that is not full yet
  by_cases hearly : 1460 ≤ 24 * c + q + 365 * k + t
  · have hfours : doe / 1460 = 25 * c + q + 1 := by omega
    omega
  · have hfours : doe / 1460 = 25 * c + q := by omega
    omega

theorem Place.dayOfYear (h : Place doe c q k t) :
    doe - (365 * (100 * c + 4 * q + k) + (100 * c + 4 * q + k) / 4 - (100 * c + 4 * q + k) / 100) =
      t := by
  obtain ⟨rfl, hc, hq, hk, ht, hleap⟩ := h
  omega

theorem Place.bounds (h : Place doe c q k t) : 0 ≤ doe ∧ doe < 146097 := by
  obtain ⟨hday, hc, hq, hk, ht, hleap⟩ := h
  omega

end place

/-- No operation overflows and no cast truncates. -/
theorem civilFromUnix_eq {secs : Int64} {era doe c q k t : Int} {mp : Nat}
    (hdays : secs.toInt / 86400 + 719468 = 146097 * era + doe) (hplace : Place doe c q k t)
    (hmp : (5 * t + 2) / 153 = mp) :
    civilFromUnix secs = some ((fromMarch (100 * c + 4 * q + k + era * 400) mp).1,
      (fromMarch (100 * c + 4 * q + k + era * 400) mp).2, (t - (153 * mp + 2) / 5 + 1).toNat,
      (secs.toInt % 86400 / 3600).toNat, (secs.toInt % 86400 % 3600 / 60).toNat,
      (secs.toInt % 86400 % 60).toNat) := by
  obtain ⟨hmin, hmax⟩ := toInt_bounds secs
  have hdoe := hplace.bounds
  have hyoe := hplace.yearOfCycle
  have hdoy := hplace.dayOfYear
  obtain ⟨-, hc, hq, hk, ht, -⟩ := hplace
  rw [civilFromUnix]
  dsimp only
  generalize secs.toInt = x at *
  generalize hyear : 100 * c + 4 * q + k = yoe at *
  have hera : (146097 * era + doe) / 146097 = era := by omega
  have hcycle : (146097 * era + doe) % 146097 = doe := by omega
  have hcount : 0 ≤ doe - doe / 1460 + doe / 36524 - doe / 146096 := by omega
  have hpos : 0 ≤ yoe := by omega
  have hmonths : 0 ≤ 5 * t + 2 := by omega
  have hmonth : (0 : Int) ≤ 153 * mp + 2 := by omega
  have hrem : 0 ≤ x % 86400 := by omega
  have hhour : 0 ≤ x % 86400 % 3600 := by omega
  rw [bind_of_eq (add_eq hdays (by omega) (by omega)), hera, hcycle]
  rw [Int.tdiv_eq_ediv_of_nonneg hdoe.1, Int.tdiv_eq_ediv_of_nonneg hdoe.1,
    Int.tdiv_eq_ediv_of_nonneg hdoe.1, bind_of_eq (sub_eq rfl (by omega) (by omega)),
    bind_of_eq (add_eq rfl (by omega) (by omega)), bind_of_eq (sub_eq rfl (by omega) (by omega)),
    Int.tdiv_eq_ediv_of_nonneg hcount, hyoe]
  rw [bind_of_eq (mul_eq rfl (by omega) (by omega)), bind_of_eq (add_eq rfl (by omega) (by omega)),
    bind_of_eq (mul_eq rfl (by omega) (by omega)), Int.tdiv_eq_ediv_of_nonneg hpos,
    Int.tdiv_eq_ediv_of_nonneg hpos, bind_of_eq (add_eq rfl (by omega) (by omega)),
    bind_of_eq (sub_eq rfl (by omega) (by omega)), bind_of_eq (sub_eq hdoy (by omega) (by omega))]
  rw [bind_of_eq (mul_eq rfl (by omega) (by omega)), bind_of_eq (add_eq rfl (by omega) (by omega)),
    Int.tdiv_eq_ediv_of_nonneg hmonths, hmp, bind_of_eq (mul_eq rfl (by omega) (by omega)),
    bind_of_eq (add_eq rfl (by omega) (by omega)), Int.tdiv_eq_ediv_of_nonneg hmonth,
    bind_of_eq (sub_eq rfl (by omega) (by omega)), bind_of_eq (add_eq rfl (by omega) (by omega))]
  rw [Int.tdiv_eq_ediv_of_nonneg hrem, Int.tmod_eq_emod_of_nonneg hrem,
    Int.tmod_eq_emod_of_nonneg hrem, Int.tdiv_eq_ediv_of_nonneg hhour]
  have hmp12 : mp < 12 := by omega
  have hlow := fromMarch_month (yoe + era * 400) hmp12
  rw [bind_of_eq (month_eq (yoe + era * 400) hmp12),
    bind_of_eq (year_eq (yoe + era * 400) hmp12 (by omega) (by omega)),
    bind_of_eq (asU32_eq (by omega) (by omega)), bind_of_eq (asU32_eq (by omega) (by omega)),
    bind_of_eq (asU32_eq (by omega) (by omega)), bind_of_eq (asU32_eq (by omega) (by omega)),
    bind_of_eq (asU32_eq (by omega) (by omega)), Int.toNat_natCast]
  rfl

/-- A last day of February that stands behind 365 others is one of a leap year. -/
theorem Place.leap_day {doe c q k t : Int} (h : Place doe c q k t) (era : Int) (ht : t = 365) :
    isLeap (100 * c + 4 * q + k + era * 400 + 1) = true := by
  obtain ⟨hk, hcentury⟩ := h.leap ht
  obtain ⟨-, hc, hq, -, -, -⟩ := h
  rw [isLeap_iff]
  refine ⟨by omega, ?_⟩
  by_cases hend : q = 24
  · have := hcentury hend
    right
    omega
  · left
    omega

/-- The day that the place in a cycle is about. -/
theorem exists_date {doe c q k t : Int} (h : Place doe c q k t) (era : Int) {mp : Nat}
    (hmp : (5 * t + 2) / 153 = mp) : ∃ date : Date,
      (date.year, date.month) = fromMarch (100 * c + 4 * q + k + era * 400) mp ∧
        (date.day : Int) = t - (153 * mp + 2) / 5 + 1 ∧
          date.dayNumber = 146097 * era + doe - 719468 := by
  have hleap := h.leap_day era
  obtain ⟨hday, hc, hq, hk, ht, -⟩ := h
  have hmp12 : mp < 12 := by omega
  generalize hyear : 100 * c + 4 * q + k + era * 400 = year at *
  have hmonth := fromMarch_month year hmp12
  have hlength := fromMarch_length year hmp12
  have hstart := fromMarch_start year hmp12
  rw [marchStart_eq] at hstart
  have hday_le : t - (153 * mp + 2) / 5 + 1 ≤
      (monthLength (fromMarch year mp).1 (fromMarch year mp).2 : Int) := by
    rw [hlength]
    split
    next hlast =>
      subst hlast
      split
      next => omega
      next hnot =>
        have hne : t ≠ 365 := fun h365 => hnot (hleap h365)
        omega
    next =>
      have hdays : (((153 * mp + 2) / 5 : Nat) : Int) = (153 * mp + 2) / 5 := by omega
      omega
  refine ⟨⟨(fromMarch year mp).1, (fromMarch year mp).2, (t - (153 * mp + 2) / 5 + 1).toNat,
    hmonth.1, hmonth.2, by omega, by omega⟩, rfl, ?_, ?_⟩
  · exact Int.toNat_of_nonneg (by omega)
  · unfold Date.dayNumber
    dsimp only
    omega

/-- For every `i64` the date and the time of day are those of the instant, and neither an
operation overflows nor a cast truncates on the way. -/
theorem civil_correct (secs : Int64) : ∃ (date : Date) (hour minute second : Nat),
    civilFromUnix secs = some (date.year, date.month, date.day, hour, minute, second) ∧
      hour < 24 ∧ minute < 60 ∧ second < 60 ∧
        date.dayNumber * 86400 + (3600 * hour + 60 * minute + second : Nat) = secs.toInt := by
  obtain ⟨c, q, k, t, hday, hc, hq, hk, ht, hleap⟩ :=
    @exists_cycle ((secs.toInt / 86400 + 719468) % 146097) (by omega) (by omega)
  have hplace : Place ((secs.toInt / 86400 + 719468) % 146097) c q k t :=
    ⟨hday, hc, hq, hk, ht, hleap⟩
  obtain ⟨mp, hmp⟩ := Int.eq_ofNat_of_zero_le (show 0 ≤ (5 * t + 2) / 153 by omega)
  have hdays : secs.toInt / 86400 + 719468 = 146097 * ((secs.toInt / 86400 + 719468) / 146097) +
      (secs.toInt / 86400 + 719468) % 146097 := by omega
  have hcivil := civilFromUnix_eq hdays hplace hmp
  obtain ⟨date, hmonth, hdate, hnumber⟩ :=
    exists_date hplace ((secs.toInt / 86400 + 719468) / 146097) hmp
  have hyear := congrArg Prod.fst hmonth
  have hmonth' := congrArg Prod.snd hmonth
  refine ⟨date, (secs.toInt % 86400 / 3600).toNat, (secs.toInt % 86400 % 3600 / 60).toNat,
    (secs.toInt % 86400 % 60).toNat, ?_, ?_⟩
  · rw [hcivil, ← hyear, ← hmonth', ← hdate, Int.toNat_natCast]
  · generalize secs.toInt = x at *
    refine ⟨by omega, by omega, by omega, ?_⟩
    rw [hnumber]
    omega

/-! ## The text of an instant -/

/-- A year is padded behind its sign. -/
def padYear : Int → List Char
  | .ofNat n => pad 4 n
  | .negSucc n => '-' :: pad 3 (n + 1)

/-- The instant is in nanoseconds since the epoch; one before it counts as the epoch. -/
def nowRfc3339 (now : Int) : Option String := do
  let elapsed := now.toNat
  let secs := Int64.ofNat (elapsed / 1000000000)
  let (year, month, day, hour, minute, second) ← civilFromUnix secs
  pure (String.ofList (padYear year ++ '-' :: pad 2 month ++ '-' :: pad 2 day ++ 'T' :: pad 2 hour ++
    ':' :: pad 2 minute ++ ':' :: pad 2 second ++ '.' :: pad 9 (elapsed % 1000000000) ++ ['Z']))

/-- The first instant behind the year 9999. -/
def endOf9999 : Int := yearStart 10000 * 86400 * 1000000000

/-- The fields of the text and what stands behind each. -/
def template : List (Nat × List Char) :=
  [(4, ['-']), (2, ['-']), (2, ['T']), (2, [':']), (2, [':']), (2, ['.']), (9, ['Z'])]

/-- An instant by the calendar. -/
structure Shown (now : Int) (date : Date) (hour minute second : Nat) : Prop where
  year_fits : 0 ≤ date.year ∧ date.year < 10000
  hour_lt : hour < 24
  minute_lt : minute < 60
  second_lt : second < 60
  instant : (date.dayNumber * 86400 + (3600 * hour + 60 * minute + second : Nat)) * 1000000000 +
    now % 1000000000 = now
  text : nowRfc3339 now = some (String.ofList (render template
    [date.year.toNat, date.month, date.day, hour, minute, second, (now % 1000000000).toNat]))

theorem yearStart_10000 : yearStart 10000 = 2932897 := by
  rw [yearStart_eq]
  decide

theorem exists_shown {now : Int} (hmin : 0 ≤ now) (hmax : now < endOf9999) :
    ∃ date hour minute second, Shown now date hour minute second := by
  obtain ⟨n, rfl⟩ := Int.eq_ofNat_of_zero_le hmin
  rw [endOf9999, yearStart_10000] at hmax
  have hsecs : (Int64.ofNat (n / 1000000000)).toInt = (n / 1000000000 : Nat) :=
    Int64.toInt_ofNat_of_lt (by omega)
  obtain ⟨date, hour, minute, second, hcivil, hhour, hminute, hsecond, hinstant⟩ :=
    civil_correct (Int64.ofNat (n / 1000000000))
  rw [hsecs] at hinstant
  have hyear : 0 ≤ date.year ∧ date.year < 10000 := by
    have hearly := date.dayNumber_lt_year
    have hlate := date.year_le_dayNumber
    constructor
    · by_contra hneg
      have hmono := @yearStart_mono (date.year + 1) 1970 (by omega)
      rw [yearStart_1970] at hmono
      omega
    · by_contra hbig
      have hmono := @yearStart_mono 10000 date.year (by omega)
      rw [yearStart_10000] at hmono
      omega
  refine ⟨date, hour, minute, second, hyear, hhour, hminute, hsecond, by omega, ?_⟩
  have hnanos : ((n : Int) % 1000000000).toNat = n % 1000000000 := by omega
  have hpad : padYear date.year = pad 4 date.year.toNat := by
    obtain ⟨y, hy⟩ := Int.eq_ofNat_of_zero_le hyear.1
    rw [hy]
    rfl
  rw [nowRfc3339]
  simp only [Int.toNat_natCast, hcivil, hnanos, hpad, Option.bind_eq_bind, Option.bind_some]
  simp [render, template]

theorem Shown.fits {now : Int} {date : Date} {hour minute second : Nat}
    (h : Shown now date hour minute second) : Fits template
      [date.year.toNat, date.month, date.day, hour, minute, second, (now % 1000000000).toNat] := by
  have hmonth := date.month_le
  have hday := date.day_le
  have hlength : monthLength date.year date.month ≤ 31 := monthLength_le _ _
  obtain ⟨hyear, hhour, hminute, hsecond, -, -⟩ := h
  refine ⟨by decide, ?_, by decide, ?_, by decide, ?_, by decide, ?_, by decide, ?_, by decide, ?_,
    by decide, ?_, trivial⟩ <;> omega

theorem Shown.lt {t u : Int} {a b : Date} {ha ma sa hb mb sb : Nat} (hshown : Shown t a ha ma sa)
    (hshown' : Shown u b hb mb sb) (h : t < u) :
    [a.year.toNat, a.month, a.day, ha, ma, sa, (t % 1000000000).toNat] <
      [b.year.toNat, b.month, b.day, hb, mb, sb, (u % 1000000000).toNat] := by
  obtain ⟨hyear, hha, hma, hsa, hinstant, -⟩ := hshown
  obtain ⟨hyear', hhb, hmb, hsb, hinstant', -⟩ := hshown'
  have hle : a.dayNumber ≤ b.dayNumber := by omega
  simp only [List.cons_lt_cons_iff]
  rcases hle.lt_or_eq with hlt | heq
  · rcases Date.before_of_dayNumber_lt hlt with hy | ⟨hy, hm | ⟨hm, hd⟩⟩
    · exact Or.inl (by omega)
    · exact Or.inr ⟨by rw [hy], Or.inl hm⟩
    · exact Or.inr ⟨by rw [hy], Or.inr ⟨hm, Or.inl hd⟩⟩
  · obtain ⟨hy, hm, hd⟩ := Date.dayNumber_injective heq
    refine Or.inr ⟨by rw [hy], Or.inr ⟨hm, Or.inr ⟨hd, ?_⟩⟩⟩
    -- on one day the time of day decides, and within a second the nanoseconds
    have hnil : ¬ ([] : List Nat) < [] := List.lt_irrefl []
    omega

/-- Of two instants up to the year 9999, the earlier one has the smaller text. -/
theorem text_strictMono {t u : Int} (hmin : 0 ≤ t) (h : t < u) (hmax : u < endOf9999) :
    ∃ first second, nowRfc3339 t = some first ∧ nowRfc3339 u = some second ∧ first < second := by
  obtain ⟨a, ha, ma, sa, hshown⟩ := exists_shown hmin (h.trans hmax)
  obtain ⟨b, hb, mb, sb, hshown'⟩ := exists_shown (hmin.trans h.le) hmax
  refine ⟨_, _, hshown.text, hshown'.text, ?_⟩
  rw [String.lt_iff, String.toList_ofList, String.toList_ofList]
  exact render_lt hshown.fits hshown'.fits (hshown.lt hshown' h)

end Mars.Clock
