import Lynox.Budget.Admission
import Mathlib.Tactic.Linarith
import Mathlib.Tactic.Ring

/-!
# The caps hold

The spend of a window (today, or this month) and what the open runs may still record stay
within the cap together (`Office.Within`). That is what admission leaves room for : it
counts a reservation in full where only its unrecorded rest can still be spent. A window
that rolls over starts at no spend, so it needs no room that the old one had not. Both caps
take the same argument, with the window as a parameter.

The headroom is computed apart from the admission, as the smallest of what the caps leave,
and never below 0. `reserve_allowed_iff` says that the two agree on every positive estimate.
-/

namespace Lynox.Budget

/-! ## Spend of a window -/

/-- The recorded spend of the days that satisfy `p`. -/
def spent (costByDay : List (Date × ℚ)) (p : Date → Bool) : ℚ :=
  ((costByDay.filter fun r => p r.1).map Prod.snd).sum

theorem spent_cons (r : Date × ℚ) (rows : List (Date × ℚ)) (p : Date → Bool) :
    spent (r :: rows) p = (if p r.1 then r.2 else 0) + spent rows p := by
  by_cases h : p r.1 <;> simp [spent, h]

theorem spent_append (rows rows' : List (Date × ℚ)) (p : Date → Bool) :
    spent (rows ++ rows') p = spent rows p + spent rows' p := by
  simp [spent]

theorem spent_nonneg {rows : List (Date × ℚ)} (h : ∀ r ∈ rows, 0 ≤ r.2) (p : Date → Bool) :
    0 ≤ spent rows p := by
  refine List.sum_nonneg fun x hx => ?_
  obtain ⟨r, hr, rfl⟩ := List.mem_map.mp hx
  exact h r (List.mem_of_mem_filter hr)

/-- A window that holds no recorded day has no spend. -/
theorem spent_eq_zero {rows : List (Date × ℚ)} {p : Date → Bool} (h : ∀ r ∈ rows, p r.1 = false) :
    spent rows p = 0 := by
  have hnil : (rows.filter fun r => p r.1) = [] :=
    List.filter_eq_nil_iff.mpr fun r hr => by simp [h r hr]
  simp [spent, hnil]

/-- What is recorded under one day is the spend of that day. -/
theorem getD_eq_spent {rows : List (Date × ℚ)} (hk : (rows.map Prod.fst).Nodup) (day : Date) :
    (Assoc.get rows day).getD 0 = spent rows (· = day) := by
  induction rows with
  | nil => rfl
  | cons r rows ih =>
    rw [List.map_cons, List.nodup_cons] at hk
    rw [spent_cons]
    by_cases h : r.1 = day
    · have hzero : spent rows (· = day) = 0 := spent_eq_zero fun r' hr' => by
        simpa using fun he : r'.1 = day => hk.1 (h ▸ he ▸ List.mem_map_of_mem hr')
      rw [hzero]
      simp [Assoc.get, Table.find, h]
    · rw [← ih hk.2]
      simp [Assoc.get, Table.find, h]

theorem spent_set_of_mem {rows : List (Date × ℚ)} (hk : (rows.map Prod.fst).Nodup) {day : Date}
    (hday : day ∈ rows.map Prod.fst) (v : ℚ) (p : Date → Bool) :
    spent (rows.map fun e => if e.1 = day then (e.1, v) else e) p =
      spent rows p + if p day then v - (Assoc.get rows day).getD 0 else 0 := by
  induction rows with
  | nil => simp at hday
  | cons r rows ih =>
    rw [List.map_cons, List.nodup_cons] at hk
    rw [List.map_cons, spent_cons, spent_cons]
    by_cases h : r.1 = day
    · subst h
      have hsame : (rows.map fun e => if e.1 = r.1 then (e.1, v) else e) = rows := by
        refine (List.map_congr_left fun e he => ?_).trans (List.map_id rows)
        have hne : e.1 ≠ r.1 := fun h => hk.1 (h ▸ List.mem_map_of_mem he)
        rw [if_neg hne, id_eq]
      have hget : (Assoc.get (r :: rows) r.1).getD 0 = r.2 := by simp [Assoc.get, Table.find]
      rw [hsame, hget]
      by_cases hp : p r.1
      · simp only [hp, if_true]
        ring
      · simp [hp]
    · have hrest := ih hk.2 ((List.mem_cons.mp hday).resolve_left (Ne.symm h))
      rw [if_neg h, hrest]
      have hget : Assoc.get (r :: rows) day = Assoc.get rows day := by
        simp [Assoc.get, Table.find, h]
      rw [hget, add_assoc]

/-- Recording a cost adds it to the windows that hold its day. -/
theorem spent_recordCost {rows : List (Date × ℚ)} (hk : (rows.map Prod.fst).Nodup) (day : Date)
    (amount : ℚ) (p : Date → Bool) :
    spent (recordCost rows day amount) p = spent rows p + if p day then amount else 0 := by
  unfold recordCost Assoc.set
  split
  · rename_i hday
    rw [spent_set_of_mem hk hday]
    by_cases hp : p day <;> simp [hp]
  · rename_i hday
    rw [Assoc.get_eq_none.mpr hday, spent_append, spent_cons]
    simp [spent]

/-! ## The invariant -/

/-- What the open runs may still record. -/
def Office.unrecorded (x : Office) : ℚ :=
  (x.runs.map fun r => r.reserved - r.recorded).sum

/-- The books are in order, and the accumulator is what the open runs reserved. -/
structure Office.Kept (x : Office) : Prop where
  days : (x.books.costByDay.map Prod.fst).Nodup
  costs : ∀ r ∈ x.books.costByDay, 0 ≤ r.2
  begun : ∀ r ∈ x.books.costByDay, ¬x.books.today.Before r.1
  ids : (x.runs.map OpenRun.id).Nodup
  runs : ∀ r ∈ x.runs, 0 ≤ r.recorded ∧ r.recorded ≤ r.reserved
  reserved : x.books.reservedInFlight = (x.runs.map OpenRun.reserved).sum

/-- The spend of the window and what may still be recorded stay within the cap; a cap below 0
leaves no room, as 0 does. -/
def Office.Within (x : Office) (window : Date → Date → Bool) (cap : Option ℚ) : Prop :=
  ∀ c, cap = some c → spent x.books.costByDay (window x.books.today) + x.unrecorded ≤ max c 0

/-- The days of today's window. -/
def thisDay (today day : Date) : Bool :=
  day = today

/-- The days of this month's window. -/
def thisMonth (today day : Date) : Bool :=
  day.month = today.month

theorem Office.Kept.unrecorded_nonneg {x : Office} (hx : x.Kept) : 0 ≤ x.unrecorded := by
  refine List.sum_nonneg fun v hv => ?_
  obtain ⟨r, hr, rfl⟩ := List.mem_map.mp hv
  exact sub_nonneg.mpr (hx.runs r hr).2

theorem Office.Kept.reserved_nonneg {x : Office} (hx : x.Kept) :
    ∀ r ∈ x.runs, 0 ≤ r.reserved :=
  fun r hr => (hx.runs r hr).1.trans (hx.runs r hr).2

theorem Office.Kept.unrecorded_le {x : Office} (hx : x.Kept) :
    x.unrecorded ≤ x.books.reservedInFlight := by
  rw [hx.reserved]
  refine List.sum_le_sum fun r hr => ?_
  exact sub_le_self _ (hx.runs r hr).1

/-! ### Reserving -/

theorem computeRecordedSpend_eq {cfg : Settings} {b : Books} {s : ℚ × ℚ}
    (hk : (b.costByDay.map Prod.fst).Nodup) (h : computeRecordedSpend cfg b = some s) :
    s = (spent b.costByDay (thisDay b.today), spent b.costByDay (thisMonth b.today)) := by
  unfold computeRecordedSpend at h
  split at h
  · simp at h
  · rw [getD_eq_spent hk] at h
    exact (Option.some.inj h).symm

/-- What a reservation does : nothing is held, or the estimate is, with room under both
caps. -/
theorem reserve_spec {cfg : Settings} {b : Books} {estimated : ℚ}
    (hk : (b.costByDay.map Prod.fst).Nodup)
    (h : (reservePersistentBudget cfg b estimated).1.allowed = true) :
    reservePersistentBudget cfg b estimated = (⟨true, 0, none⟩, b) ∨
      (0 < estimated ∧
        reservePersistentBudget cfg b estimated = (⟨true, estimated, none⟩,
          { b with reservedInFlight := b.reservedInFlight + estimated }) ∧
        (∀ c, cfg.dailyCap = some c →
          spent b.costByDay (thisDay b.today) + b.reservedInFlight + estimated ≤ c) ∧
        ∀ c, cfg.monthlyCap = some c →
          spent b.costByDay (thisMonth b.today) + b.reservedInFlight + estimated ≤ c) := by
  unfold reservePersistentBudget at h ⊢
  split
  · exact Or.inl rfl
  · rename_i todayCost monthCost hspend
    obtain ⟨rfl, rfl⟩ := Prod.mk.inj (computeRecordedSpend_eq hk hspend)
    simp only [hspend] at h
    split
    · exact Or.inl rfl
    · rename_i hpos
      rw [if_neg hpos] at h
      split
      · rename_i hover
        simp [hover] at h
      · rename_i hday
        rw [if_neg hday] at h
        split
        · rename_i hover
          simp [hover] at h
        · rename_i hmonth
          refine Or.inr ⟨not_le.mp hpos, rfl, fun c hc => ?_, fun c hc => ?_⟩
          · simpa [exceeds, hc] using hday
          · simpa [exceeds, hc] using hmonth

theorem Office.Kept.reserve {cfg : Settings} {x : Office} (hx : x.Kept) {run : Nat}
    {estimated : ℚ} (hrun : run ∉ x.runs.map OpenRun.id)
    (hday : x.Within thisDay cfg.dailyCap) (hmonth : x.Within thisMonth cfg.monthlyCap) :
    (x.step cfg (.reserve run estimated)).Kept ∧
      (x.step cfg (.reserve run estimated)).Within thisDay cfg.dailyCap ∧
      (x.step cfg (.reserve run estimated)).Within thisMonth cfg.monthlyCap := by
  have hids : ∀ r : OpenRun, r.id = run → ((x.runs ++ [r]).map OpenRun.id).Nodup := by
    rintro r rfl
    rw [List.map_append, List.map_singleton]
    exact hx.ids.append (List.nodup_singleton _) (by simpa using hrun)
  simp only [Office.step]
  by_cases hallowed : (reservePersistentBudget cfg x.books estimated).1.allowed = true
  swap
  · simp only [hallowed, if_false, Bool.false_eq_true]
    exact ⟨hx, hday, hmonth⟩
  rw [if_pos hallowed]
  have hle := hx.unrecorded_le
  rcases reserve_spec hx.days hallowed with h | ⟨hpos, h, hdaily, hmonthly⟩
  · rw [h]
    have hsum : Office.unrecorded ⟨x.books, x.runs ++ [⟨run, 0, 0⟩]⟩ = x.unrecorded := by
      simp [Office.unrecorded]
    refine ⟨⟨hx.days, hx.costs, hx.begun, hids _ rfl, ?_, ?_⟩, ?_, ?_⟩
    · intro r hr
      rcases List.mem_append.mp hr with hr | hr
      · exact hx.runs r hr
      · rw [List.mem_singleton.mp hr]
        simp
    · simpa using hx.reserved
    · exact fun c hc => hsum ▸ hday c hc
    · exact fun c hc => hsum ▸ hmonth c hc
  · rw [h]
    have hsum : Office.unrecorded
        ⟨{ x.books with reservedInFlight := x.books.reservedInFlight + estimated },
          x.runs ++ [⟨run, estimated, 0⟩]⟩ = x.unrecorded + estimated := by
      simp [Office.unrecorded]
    refine ⟨⟨hx.days, hx.costs, hx.begun, hids _ rfl, ?_, ?_⟩, ?_, ?_⟩
    · intro r hr
      rcases List.mem_append.mp hr with hr | hr
      · exact hx.runs r hr
      · rw [List.mem_singleton.mp hr]
        exact ⟨le_refl 0, hpos.le⟩
    · simp [hx.reserved]
    · intro c hc
      have hc' := hdaily c hc
      have hmax := le_max_left c 0
      rw [hsum]
      simp only
      linarith
    · intro c hc
      have hc' := hmonthly c hc
      have hmax := le_max_left c 0
      rw [hsum]
      simp only
      linarith

/-! ### Recording, releasing, a later day -/

/-- Recording a cost leaves that much less to record. -/
theorem sum_recorded {runs : List OpenRun} (hids : (runs.map OpenRun.id).Nodup) {run : Nat}
    {r : OpenRun} (hr : Table.find OpenRun.id runs run = some r) (amount : ℚ) :
    ((runs.map fun r => if r.id = run then { r with recorded := r.recorded + amount } else r).map
      fun r => r.reserved - r.recorded).sum =
      (runs.map fun r => r.reserved - r.recorded).sum - amount := by
  induction runs with
  | nil => simp [Table.find] at hr
  | cons r' runs ih =>
    rw [List.map_cons, List.nodup_cons] at hids
    simp only [List.map_cons, List.sum_cons]
    by_cases h : r'.id = run
    · have hsame : (runs.map fun r =>
          if r.id = run then { r with recorded := r.recorded + amount } else r) = runs := by
        refine (List.map_congr_left fun r'' hr'' => ?_).trans (List.map_id runs)
        have hne : r''.id ≠ run := fun he => hids.1 (h ▸ he ▸ List.mem_map_of_mem hr'')
        rw [if_neg hne, id_eq]
      rw [hsame, if_pos h]
      ring
    · have hr' : Table.find OpenRun.id runs run = some r := by
        simpa [Table.find, h] using hr
      rw [ih hids.2 hr', if_neg h]
      ring

theorem Office.Kept.record {x : Office} (hx : x.Kept) (cfg : Settings) {run : Nat} {day : Date}
    {amount : ℚ} (h : x.Allowed (.record run day amount)) :
    (x.step cfg (.record run day amount)).Kept ∧
      ∀ window cap, x.Within window cap →
        (x.step cfg (.record run day amount)).Within window cap := by
  obtain ⟨hamount, hbegun, r, hr, hle⟩ := h
  have hmem := Table.mem_of_find hr
  have hid := Table.key_of_find hr
  have hkeys : ∀ d, d ∈ (recordCost x.books.costByDay day amount).map Prod.fst →
      d = day ∨ d ∈ x.books.costByDay.map Prod.fst := fun d hd => Assoc.mem_keys_set.mp hd
  refine ⟨⟨?_, ?_, ?_, ?_, ?_, ?_⟩, fun window cap hw c hc => ?_⟩
  · simp only [Office.step, recordCost]
    by_cases hday : day ∈ x.books.costByDay.map Prod.fst
    · rw [Assoc.keys_set_of_mem hday]
      exact hx.days
    · rw [Assoc.keys_set_of_notMem hday]
      exact hx.days.append (List.nodup_singleton _) (by simpa using hday)
  · have hold : 0 ≤ (Assoc.get x.books.costByDay day).getD 0 := by
      rcases hg : Assoc.get x.books.costByDay day with _ | v
      · simp
      · exact hx.costs _ (Assoc.mem_of_get hg)
    intro e he
    simp only [Office.step, recordCost, Assoc.set] at he
    split at he
    · obtain ⟨e', he', rfl⟩ := List.mem_map.mp he
      split
      · exact add_nonneg hold hamount
      · exact hx.costs e' he'
    · rcases List.mem_append.mp he with he | he
      · exact hx.costs e he
      · rw [List.mem_singleton.mp he]
        exact add_nonneg hold hamount
  · intro e he
    rcases hkeys e.1 (List.mem_map_of_mem he) with h | h
    · rw [h]
      exact hbegun
    · obtain ⟨e', he', heq⟩ := List.mem_map.mp h
      exact heq ▸ hx.begun e' he'
  · rw [Office.step, Table.map_key fun r => by split <;> rfl]
    exact hx.ids
  · intro r' hr'
    obtain ⟨r₀, hr₀, rfl⟩ := List.mem_map.mp hr'
    split
    · rename_i heq
      have hsame : r₀ = r := Option.some.inj
        ((Table.find_of_mem hx.ids hr₀).symm.trans ((congrArg _ heq).trans hr))
      exact ⟨add_nonneg (hx.runs r₀ hr₀).1 hamount, hsame ▸ hle⟩
    · exact hx.runs r₀ hr₀
  · rw [Office.step, List.map_map, hx.reserved]
    refine congrArg List.sum (List.map_congr_left fun r' _ => ?_)
    simp only [Function.comp_apply]
    split <;> rfl
  · have hsum := sum_recorded hx.ids hr amount
    have hspent := spent_recordCost hx.days day amount (window x.books.today)
    have hwc := hw c hc
    have hadd : (if window x.books.today day then amount else 0) ≤ amount := by
      split
      · exact le_refl amount
      · exact hamount
    simp only [Office.step, Office.unrecorded] at hwc ⊢
    rw [hsum, hspent]
    linarith

/-- The open runs without one of them. -/
theorem sum_released {runs : List OpenRun} (f : OpenRun → ℚ) (hids : (runs.map OpenRun.id).Nodup)
    {run : Nat} {r : OpenRun} (hr : Table.find OpenRun.id runs run = some r) :
    ((runs.filter (·.id ≠ run)).map f).sum = (runs.map f).sum - f r := by
  induction runs with
  | nil => simp [Table.find] at hr
  | cons r' runs ih =>
    rw [List.map_cons, List.nodup_cons] at hids
    by_cases h : r'.id = run
    · obtain rfl : r' = r := by simpa [Table.find, h] using hr
      have hsame : runs.filter (·.id ≠ run) = runs := by
        refine List.filter_eq_self.mpr fun r'' hr'' => ?_
        simpa using fun he : r''.id = run => hids.1 (h ▸ he ▸ List.mem_map_of_mem hr'')
      rw [List.filter_cons_of_neg (by simp [h]), hsame]
      simp
    · have hr' : Table.find OpenRun.id runs run = some r := by
        simpa [Table.find, h] using hr
      rw [List.filter_cons_of_pos (by simp [h]), List.map_cons, List.sum_cons, ih hids.2 hr',
        List.map_cons, List.sum_cons]
      ring

theorem Office.Kept.release {x : Office} (hx : x.Kept) (cfg : Settings) (run : Nat) :
    (x.step cfg (.release run)).Kept ∧
      ∀ window cap, x.Within window cap → (x.step cfg (.release run)).Within window cap := by
  simp only [Office.step]
  split
  · exact ⟨hx, fun _ _ h => h⟩
  · rename_i r hr
    have hmem := Table.mem_of_find hr
    have hreserved := sum_released OpenRun.reserved hx.ids hr
    have hrest : 0 ≤ ((x.runs.filter (·.id ≠ run)).map OpenRun.reserved).sum := by
      refine List.sum_nonneg fun v hv => ?_
      obtain ⟨r', hr', rfl⟩ := List.mem_map.mp hv
      exact hx.reserved_nonneg r' (List.mem_of_mem_filter hr')
    have hbooks : (releasePersistentBudget x.books r.reserved).costByDay = x.books.costByDay ∧
        (releasePersistentBudget x.books r.reserved).today = x.books.today := by
      unfold releasePersistentBudget
      split <;> exact ⟨rfl, rfl⟩
    have hflight : (releasePersistentBudget x.books r.reserved).reservedInFlight =
        ((x.runs.filter (·.id ≠ run)).map OpenRun.reserved).sum := by
      unfold releasePersistentBudget
      split
      · rename_i hzero
        have hzero' : r.reserved = 0 := le_antisymm hzero (hx.reserved_nonneg r hmem)
        rw [hx.reserved, hreserved, hzero', sub_zero]
      · simp only [hx.reserved]
        rw [hreserved] at hrest ⊢
        exact max_eq_right hrest
    refine ⟨⟨?_, ?_, ?_, ?_, ?_, hflight⟩, fun window cap hw c hc => ?_⟩
    · simpa only [hbooks.1] using hx.days
    · simpa only [hbooks.1] using hx.costs
    · simpa only [hbooks.1, hbooks.2] using hx.begun
    · exact hx.ids.sublist (List.filter_sublist.map _)
    · exact fun r' hr' => hx.runs r' (List.mem_of_mem_filter hr')
    · have hwc := hw c hc
      have hsum := sum_released (fun r => r.reserved - r.recorded) hx.ids hr
      have hle := (hx.runs r hmem).2
      simp only [Office.unrecorded] at hwc ⊢
      rw [hbooks.1, hbooks.2, hsum]
      linarith

/-- On a later day the window holds no recorded day, or it is the window it was. -/
theorem Office.Kept.advance {x : Office} (hx : x.Kept) (cfg : Settings) {day : Date}
    (h : x.books.today.Before day) {window : Date → Date → Bool} {cap : Option ℚ}
    (hroll : window day = window x.books.today ∨
      ∀ d, ¬x.books.today.Before d → window day d = false) (hw : x.Within window cap) :
    (x.step cfg (.advance day)).Kept ∧ (x.step cfg (.advance day)).Within window cap := by
  refine ⟨⟨hx.days, hx.costs, fun r hr hbefore => ?_, hx.ids, hx.runs, hx.reserved⟩,
    fun c hc => ?_⟩
  · refine hx.begun r hr ?_
    unfold Date.Before at h hbefore ⊢
    simp only [Office.step] at hbefore
    omega
  · have hwc := hw c hc
    have hnonneg := spent_nonneg hx.costs (window x.books.today)
    simp only [Office.step]
    rcases hroll with hsame | hnone
    · rw [hsame]
      exact hwc
    · rw [spent_eq_zero fun r hr => hnone r.1 (hx.begun r hr)]
      simp only [Office.unrecorded] at hwc ⊢
      linarith

theorem thisDay_rolls {today day : Date} (h : today.Before day) :
    ∀ d, ¬today.Before d → thisDay day d = false := by
  intro d hd
  simpa [thisDay] using fun he : d = day => hd (he ▸ h)

theorem thisMonth_rolls {today day : Date} (h : today.Before day) :
    thisMonth day = thisMonth today ∨ ∀ d, ¬today.Before d → thisMonth day d = false := by
  by_cases hm : day.month = today.month
  · exact Or.inl (by funext d; simp [thisMonth, hm])
  · refine Or.inr fun d hd => ?_
    unfold Date.Before at h hd
    simp only [thisMonth, decide_eq_false_iff_not]
    omega

/-- What every allowed event keeps. -/
theorem Office.kept_step {cfg : Settings} {x : Office} {e : BudgetEvent}
    (hx : x.Kept ∧ x.Within thisDay cfg.dailyCap ∧ x.Within thisMonth cfg.monthlyCap)
    (h : x.Allowed e) :
    (x.step cfg e).Kept ∧ (x.step cfg e).Within thisDay cfg.dailyCap ∧
      (x.step cfg e).Within thisMonth cfg.monthlyCap := by
  obtain ⟨hk, hday, hmonth⟩ := hx
  cases e with
  | reserve run estimated => exact hk.reserve h hday hmonth
  | record run day amount =>
    obtain ⟨hk', hw⟩ := hk.record cfg h
    exact ⟨hk', hw _ _ hday, hw _ _ hmonth⟩
  | release run =>
    obtain ⟨hk', hw⟩ := hk.release cfg run
    exact ⟨hk', hw _ _ hday, hw _ _ hmonth⟩
  | advance day =>
    obtain ⟨hk', hday'⟩ := hk.advance cfg h (Or.inr (thisDay_rolls h)) hday
    exact ⟨hk', hday', (hk.advance cfg h (thisMonth_rolls h) hmonth).2⟩

/-! ## Headroom -/

/-- A positive estimate fits into the smallest remainder, or into none, exactly when it fits
into each. -/
theorem fits_min_iff {remaining : List ℚ} {estimated : ℚ} (hpos : 0 < estimated) :
    (remaining.min?.map (max 0) = none ∨
      ∃ h, remaining.min?.map (max 0) = some h ∧ estimated ≤ h) ↔
      ∀ r ∈ remaining, estimated ≤ r := by
  rcases hmin : remaining.min? with _ | m
  · simp [List.min?_eq_none_iff.mp hmin]
  · have hmax : estimated ≤ max 0 m ↔ estimated ≤ m :=
      ⟨fun h => (le_max_iff.mp h).resolve_left (not_le.mpr hpos), fun h => h.trans (le_max_right ..)⟩
    simpa [hmax] using List.le_min?_iff hmin

/-- What a cap that is on leaves covers the estimate exactly when the projection does not
exceed the cap. -/
theorem not_exceeds_iff {cap : Option ℚ} {spend reserved estimated : ℚ} :
    ¬exceeds cap (spend + reserved + estimated) = true ↔
      ∀ r ∈ cap.toList.map (· - spend - reserved), estimated ≤ r := by
  rcases cap with _ | c
  · simp [exceeds]
  · simp only [exceeds, Option.any_some, decide_eq_true_eq, not_lt, Option.toList_some,
      List.map_cons, List.map_nil, List.mem_singleton, forall_eq]
    constructor <;> intro h <;> linarith

theorem reserve_allowed_iff (cfg : Settings) (b : Books) {estimated : ℚ} (hpos : 0 < estimated) :
    (reservePersistentBudget cfg b estimated).1.allowed = true ↔
      persistentBudgetHeadroom cfg b = none ∨
        ∃ h, persistentBudgetHeadroom cfg b = some h ∧ estimated ≤ h := by
  unfold reservePersistentBudget persistentBudgetHeadroom
  rcases computeRecordedSpend cfg b with _ | ⟨todayCost, monthCost⟩
  · simp
  simp only [if_neg (not_le.mpr hpos)]
  rw [fits_min_iff hpos, List.forall_mem_append, ← not_exceeds_iff, ← not_exceeds_iff]
  split
  · rename_i hday
    simp [hday]
  · rename_i hday
    split
    · rename_i hmonth
      simp [hmonth]
    · rename_i hmonth
      simp [hday, hmonth]

/-! ## The caps hold -/

/-- Whatever order reservations, releases, recorded costs and later days come in : today's
recorded spend and this month's stay within their caps, and an estimate is admitted exactly
when it fits into the headroom. Under a cap below 0 nothing is ever spent. -/
theorem spend_stays_within_caps (cfg : Settings) (today : Date) (events : List BudgetEvent)
    (hobeys : Run.Obeys (Office.step cfg) Office.Allowed (Office.fresh today) events) :
    let b := (Run.after (Office.step cfg) (Office.fresh today) events).books
    (∀ cap, cfg.dailyCap = some cap → (Assoc.get b.costByDay b.today).getD 0 ≤ max cap 0) ∧
      (∀ cap, cfg.monthlyCap = some cap →
        ((b.costByDay.filter fun r => r.1.month = b.today.month).map Prod.snd).sum ≤ max cap 0) ∧
      ∀ estimated, 0 < estimated →
        ((reservePersistentBudget cfg b estimated).1.allowed = true ↔
          persistentBudgetHeadroom cfg b = none ∨
            ∃ h, persistentBudgetHeadroom cfg b = some h ∧ estimated ≤ h) := by
  have hfresh : (Office.fresh today).Kept ∧ (Office.fresh today).Within thisDay cfg.dailyCap ∧
      (Office.fresh today).Within thisMonth cfg.monthlyCap := by
    have hnone : ∀ window cap, (Office.fresh today).Within window cap := fun window cap c _ => by
      simp [Office.fresh, Office.unrecorded, spent]
    refine ⟨⟨?_, ?_, ?_, ?_, ?_, ?_⟩, hnone _ _, hnone _ _⟩ <;> simp [Office.fresh]
  obtain ⟨hk, hday, hmonth⟩ :=
    Run.invariant_of (I := fun x => x.Kept ∧ x.Within thisDay cfg.dailyCap ∧
      x.Within thisMonth cfg.monthlyCap) (fun _ _ => Office.kept_step) hfresh hobeys
  have hrest := hk.unrecorded_nonneg
  refine ⟨fun cap hcap => ?_, fun cap hcap => ?_, fun estimated => reserve_allowed_iff cfg _⟩
  · rw [getD_eq_spent hk.days]
    exact (le_add_of_nonneg_right hrest).trans (hday cap hcap)
  · exact (le_add_of_nonneg_right hrest).trans (hmonth cap hcap)

/-- Under a daily cap of 10 a run reserves 6; a second cannot reserve 5, and reserves 4. Each
records 4. -/
def twoRuns : List BudgetEvent :=
  [.reserve 1 6, .reserve 2 5, .reserve 2 4, .record 1 ⟨9, 30⟩ 4, .release 1, .record 2 ⟨9, 30⟩ 4]

theorem two_runs_spend_eight :
    let b := (Run.after (Office.step ⟨true, some 10, none⟩) (Office.fresh ⟨9, 30⟩) twoRuns).books
    (Assoc.get b.costByDay b.today).getD 0 = 8 ∧ (Assoc.get b.costByDay b.today).getD 0 ≤ max 10 0 := by
  refine ⟨by decide +kernel, ?_⟩
  exact (spend_stays_within_caps ⟨true, some 10, none⟩ ⟨9, 30⟩ twoRuns (by decide +kernel)).1 10 rfl

/-- What is held in flight is what the open runs reserved, and each records within its own : no release
is cut off at 0. -/
theorem reservations_are_conserved (cfg : Settings) (today : Date) (events : List BudgetEvent)
    (hobeys : Run.Obeys (Office.step cfg) Office.Allowed (Office.fresh today) events) :
    let x := Run.after (Office.step cfg) (Office.fresh today) events
    x.books.reservedInFlight = (x.runs.map OpenRun.reserved).sum ∧
      ∀ r ∈ x.runs, r.recorded ≤ r.reserved ∧ r.reserved ≤ x.books.reservedInFlight := by
  obtain ⟨hk, -⟩ := Run.invariant_of (I := fun x => x.Kept ∧ x.Within thisDay cfg.dailyCap ∧
    x.Within thisMonth cfg.monthlyCap) (fun _ _ => Office.kept_step)
    (by refine ⟨⟨?_, ?_, ?_, ?_, ?_, ?_⟩, fun _ _ => ?_, fun _ _ => ?_⟩ <;>
      simp [Office.fresh, Office.unrecorded, spent]) hobeys
  refine ⟨hk.reserved, fun r hr => ⟨(hk.runs r hr).2, ?_⟩⟩
  rw [hk.reserved]
  refine List.single_le_sum (fun v hv => ?_) _ (List.mem_map_of_mem hr)
  obtain ⟨q, hq, rfl⟩ := List.mem_map.mp hv
  exact hk.reserved_nonneg q hq

theorem four_are_in_flight : (Run.after (Office.step ⟨true, some 10, none⟩) (Office.fresh ⟨9, 30⟩)
    twoRuns).books.reservedInFlight = 4 :=
  (reservations_are_conserved _ _ twoRuns (by decide +kernel)).1.trans (by decide +kernel)

end Lynox.Budget
