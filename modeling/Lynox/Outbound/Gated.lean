import Lynox.Outbound.Overrides

/-!
# The gate takes the strongest method a request names

`Strongest` is what the loop of `effectiveWriteMethod` keeps : every candidate that is not blank is known and
no stronger than the method so far, which is the one that is sent or a write among them. With it the rank is
a maximum, and a request that names more is gated no weaker (`effectiveWriteMethod_strongest`).

A header adds to what a request names, with one exception by design : a content type that comes to name JSON
alone takes the form reading of a body away (`NamesJsonAlone`).
-/

namespace Lynox.Outbound

open Text

/-! ## The loop over the candidates -/

section Loop

variable {P : Platform} {candidates : List JsString} {effective raw m : JsString}

/-- What was found among the candidates read so far. -/
structure Strongest (P : Platform) (sent : JsString) (candidates : List JsString) (m : JsString) :
    Prop where
  sent_le : rank sent ≤ rank m
  known : ∀ raw ∈ candidates, P.asMethod raw ≠ [] → isKnown P raw = true ∧ rank (P.asMethod raw) ≤ rank m
  named : m = sent ∨ 0 < rank m ∧ ∃ raw ∈ candidates, isKnown P raw = true ∧ P.asMethod raw = m

theorem raise_spec (h : raise P effective raw = some m) : rank effective ≤ rank m ∧
    (P.asMethod raw ≠ [] → isKnown P raw = true ∧ rank (P.asMethod raw) ≤ rank m) ∧
      (m = effective ∨ 0 < rank m ∧ isKnown P raw = true ∧ P.asMethod raw = m) := by
  unfold raise at h
  simp only at h
  split_ifs at h with hblank hunknown hstronger
  · rw [← Option.some.inj h]
    exact ⟨le_refl _, fun hne => absurd hblank hne, .inl rfl⟩
  · have hknown : isKnown P raw = true := by simpa [isKnown] using hunknown
    rw [← Option.some.inj h]
    exact ⟨hstronger.2, fun _ => ⟨hknown, le_refl _⟩, .inr ⟨hstronger.1, hknown, rfl⟩⟩
  · have hknown : isKnown P raw = true := by simpa [isKnown] using hunknown
    rw [← Option.some.inj h]
    refine ⟨le_refl _, fun _ => ⟨hknown, ?_⟩, .inl rfl⟩
    by_contra hlt
    exact hstronger ⟨by omega, by omega⟩

theorem strongest_of_foldlM : ∀ {candidates : List JsString} {sent : JsString},
    candidates.foldlM (raise P) sent = some m → Strongest P sent candidates m
  | [], sent, h => by
    rw [Option.some.inj h]
    exact ⟨le_refl _, by simp, .inl rfl⟩
  | raw :: candidates, sent, h => by
    rw [List.foldlM_cons, Option.bind_eq_bind, Option.bind_eq_some_iff] at h
    obtain ⟨effective, hraise, hrest⟩ := h
    have hstep := raise_spec hraise
    have ih := strongest_of_foldlM hrest
    refine ⟨hstep.1.trans ih.sent_le, fun raw' hmem hne => ?_, ?_⟩
    · rcases List.mem_cons.mp hmem with rfl | hmem
      · exact ⟨(hstep.2.1 hne).1, (hstep.2.1 hne).2.trans ih.sent_le⟩
      · exact ih.known raw' hmem hne
    · rcases ih.named with heq | ⟨hpos, raw', hmem, hknown, heq⟩
      · rcases hstep.2.2 with hsame | ⟨hpos, hknown, hraw⟩
        · exact .inl (heq.trans hsame)
        · exact .inr ⟨heq ▸ hpos, raw, by simp, hknown, hraw.trans heq.symm⟩
      · exact .inr ⟨hpos, raw', by simp [hmem], hknown, heq⟩

end Loop

/-! ## The gated method among what is named -/

section Named

variable {P : Platform} {r : Request} {m : JsString}

theorem nil_not_known : KNOWN_METHODS.contains ([] : JsString) = false := by decide

theorem effectiveWriteMethod_spec (h : effectiveWriteMethod P r = some m) :
    isKnown P r.method = true ∧ Strongest P (P.asMethod r.method) (overrideCandidates P r) m := by
  unfold effectiveWriteMethod at h
  simp only at h
  split_ifs at h with hknown
  exact ⟨hknown, strongest_of_foldlM h⟩

theorem not_blank_of_known {raw : JsString} (h : isKnown P raw = true) : P.asMethod raw ≠ [] := by
  intro hnil
  rw [isKnown, hnil, nil_not_known] at h
  exact Bool.false_ne_true h

/-- The method is read from what the request names. -/
theorem exists_named (h : effectiveWriteMethod P r = some m) :
    ∃ raw ∈ r.method :: overrideCandidates P r, isKnown P raw = true ∧ P.asMethod raw = m := by
  obtain ⟨hknown, hstrong⟩ := effectiveWriteMethod_spec h
  rcases hstrong.named with heq | ⟨-, raw, hmem, hraw, heq⟩
  · exact ⟨r.method, by simp, hknown, heq.symm⟩
  · exact ⟨raw, by simp [hmem], hraw, heq⟩

theorem rank_le_of_named (h : effectiveWriteMethod P r = some m) {raw : JsString}
    (hmem : raw ∈ r.method :: overrideCandidates P r) (hne : P.asMethod raw ≠ []) :
    rank (P.asMethod raw) ≤ rank m := by
  obtain ⟨-, hstrong⟩ := effectiveWriteMethod_spec h
  rcases List.mem_cons.mp hmem with rfl | hmem
  · exact hstrong.sent_le
  · exact (hstrong.known raw hmem hne).2

theorem isReadMethod_iff_rank : isReadMethod m = true ↔ rank m = 0 := by
  unfold rank
  split_ifs <;> simp_all

theorem mem_writeMethodsNamed : m ∈ writeMethodsNamed P r ↔
    ∃ raw ∈ r.method :: overrideCandidates P r, P.asMethod raw = m ∧ isKnown P raw = true ∧ 0 < rank m := by
  unfold writeMethodsNamed isKnown
  simp only [List.mem_mergeSort, List.mem_eraseDups, List.mem_filter, List.mem_map, Bool.and_eq_true,
    decide_eq_true_eq]
  constructor
  · rintro ⟨⟨raw, hmem, rfl⟩, hknown, hpos⟩
    exact ⟨raw, hmem, rfl, hknown, hpos⟩
  · rintro ⟨raw, hmem, rfl, hknown, hpos⟩
    exact ⟨⟨raw, hmem, rfl⟩, hknown, hpos⟩

theorem mem_writeMethodsNamed_of_write (h : effectiveWriteMethod P r = some m)
    (hwrite : isReadMethod m = false) : m ∈ writeMethodsNamed P r := by
  obtain ⟨raw, hmem, hknown, heq⟩ := exists_named h
  refine mem_writeMethodsNamed.mpr ⟨raw, hmem, heq, hknown, ?_⟩
  by_contra hzero
  rw [isReadMethod_iff_rank.mpr (by omega)] at hwrite
  exact Bool.noConfusion hwrite

theorem isReadMethod_iff_no_write (h : effectiveWriteMethod P r = some m) :
    isReadMethod m = true ↔ writeMethodsNamed P r = [] := by
  refine ⟨fun hread => List.eq_nil_iff_forall_not_mem.mpr fun w hw => ?_, fun hnil => ?_⟩
  · obtain ⟨raw, hmem, rfl, hknown, hpos⟩ := mem_writeMethodsNamed.mp hw
    have hle := rank_le_of_named h hmem (not_blank_of_known hknown)
    rw [isReadMethod_iff_rank.mp hread] at hle
    omega
  · by_contra hwrite
    have hmem := mem_writeMethodsNamed_of_write h (Bool.eq_false_iff.mpr hwrite)
    rw [hnil] at hmem
    exact List.not_mem_nil hmem

end Named

/-! ## Values written as one text -/

section Join

variable {word s t : JsString} {values : List JsString}

theorem includes_iff (hne : word ≠ []) : includes s word = true ↔ word <:+: s := by
  unfold includes
  constructor
  · intro h
    obtain ⟨i, hi⟩ := Option.isSome_iff_exists.mp h
    obtain ⟨-, hat, -⟩ := (indexOf_eq_some_iff hne).mp hi
    exact hat.isInfix.trans (List.drop_suffix i s).isInfix
  · rintro ⟨lead, trail, rfl⟩
    by_contra hnone
    rw [Option.not_isSome_iff_eq_none, indexOf_eq_none_iff hne] at hnone
    refine hnone lead.length (Nat.zero_le _) ?_
    rw [At, List.append_assoc, List.drop_left]
    exact List.prefix_append _ _

theorem commaBlank : utf16 ", " = [0x2C, 0x20] := by decide

theorem join_cons_cons (v w : JsString) : (utf16 ", ").intercalate (v :: w :: values) =
    v ++ 0x2C :: 0x20 :: (utf16 ", ").intercalate (w :: values) := by
  rw [commaBlank]
  simp [List.intercalate, List.intersperse]

/-- A word without a comma and a blank stands in the joined text where it stands in a value. -/
theorem infix_join (hne : word ≠ []) (hcomma : 0x2C ∉ word) (hblank : 0x20 ∉ word) :
    ∀ {values : List JsString}, word <:+: (utf16 ", ").intercalate values ↔ ∃ v ∈ values, word <:+: v
  | [] => by
    refine ⟨fun h => absurd (List.infix_nil.mp h) hne, ?_⟩
    rintro ⟨v, hv, -⟩
    exact absurd hv List.not_mem_nil
  | [v] => by simp
  | v :: w :: values => by
    have ih : word <:+: (utf16 ", ").intercalate (w :: values) ↔ ∃ v ∈ w :: values, word <:+: v :=
      infix_join hne hcomma hblank
    rw [join_cons_cons]
    constructor
    · intro h
      rcases infix_of_not_mem h hcomma with h | h
      · exact ⟨v, by simp, h⟩
      · rcases infix_of_not_mem (x := []) h hblank with h | h
        · exact absurd (List.infix_nil.mp h) hne
        · obtain ⟨v', hmem, h⟩ := ih.mp h
          exact ⟨v', List.mem_cons_of_mem v hmem, h⟩
    · rintro ⟨v', hmem, h⟩
      rcases List.mem_cons.mp hmem with rfl | hmem
      · exact h.trans (List.prefix_append _ _).isInfix
      · refine (ih.mpr ⟨v', hmem, h⟩).trans ?_
        exact ⟨v ++ [0x2C, 0x20], [], by simp⟩

/-! ### A charset is named in one value -/

variable {p : UInt16 → Bool} {c : UInt16}

theorem dropWhile_append_cons (hc : p c = false) (s t : JsString) :
    (s ++ c :: t).dropWhile p = s.dropWhile p ++ c :: t := by
  induction s with
  | nil => simp [hc]
  | cons u s ih =>
    rw [List.cons_append, List.dropWhile_cons, List.dropWhile_cons, ih]
    split_ifs <;> rfl

theorem takeWhile_append_cons (hc : p c = false) (s t : JsString) :
    (s ++ c :: t).takeWhile p = s.takeWhile p := by
  induction s with
  | nil => simp [hc]
  | cons u s ih =>
    rw [List.cons_append, List.takeWhile_cons, List.takeWhile_cons, ih]

/-- A text behind the star with digits it begins with. -/
def afterNumber (s : JsString) : JsString :=
  match s with
  | 0x2A :: rest =>
    let digits := rest.takeWhile isDigit
    if digits = [] then s else rest.drop digits.length
  | _ => s

/-- A text behind the star it begins with. -/
def afterStar (s : JsString) : JsString :=
  match s with
  | 0x2A :: rest => rest
  | _ => s

theorem charsetStars_eq (s : JsString) : charsetStars s = afterStar (afterNumber s) := rfl

theorem afterStar_append (s t : JsString) : afterStar (s ++ 0x2C :: t) = afterStar s ++ 0x2C :: t := by
  unfold afterStar
  rcases s with _ | ⟨u, rest⟩
  · rfl
  · rw [List.cons_append]
    split <;> simp_all

theorem afterNumber_append (s t : JsString) : afterNumber (s ++ 0x2C :: t) = afterNumber s ++ 0x2C :: t := by
  unfold afterNumber
  rcases s with _ | ⟨u, rest⟩
  · rfl
  · by_cases hu : u = 0x2A
    · rw [hu, List.cons_append]
      simp only
      rw [takeWhile_append_cons (by decide)]
      split_ifs with hnone
      · rfl
      · rw [List.drop_append_of_le_length (List.takeWhile_sublist _).length_le]
    · rw [List.cons_append]
      split <;> simp_all

theorem charsetStars_append (s t : JsString) :
    charsetStars (s ++ 0x2C :: t) = charsetStars s ++ 0x2C :: t := by
  rw [charsetStars_eq, afterNumber_append, afterStar_append, charsetStars_eq]

theorem charsetValue_append (s t : JsString) : charsetValue (s ++ 0x2C :: t) =
    ((charsetValue s).1, (charsetValue s).2 ++ 0x2C :: t) := by
  have hunit : isCharsetUnit 0x2C = false := by decide
  unfold charsetValue
  rcases s with _ | ⟨u, rest⟩
  · simp [hunit]
  · by_cases hu : u = 0x22
    · rw [hu, List.cons_append]
      simp only
      rw [dropWhile_append_cons hunit, takeWhile_append_cons hunit]
      rcases hrest : rest.dropWhile isCharsetUnit with _ | ⟨w, after⟩
      · rfl
      · rw [List.cons_append]
        split <;> simp_all
    · rw [dropWhile_append_cons hunit, takeWhile_append_cons hunit, List.cons_append]
      split <;> simp_all

/-- What follows the name of a charset that a parameter names. -/
theorem charsetParameter_eq (s : JsString) : charsetParameter s =
    if (utf16 "charset").isPrefixOf s then
      match (charsetStars ((s.drop 7).dropWhile isWhite)).dropWhile isWhite with
      | 0x3D :: rest => some ((charsetValue (rest.dropWhile isWhite)).1,
          s.length - (charsetValue (rest.dropWhile isWhite)).2.length - 1)
      | _ => none
    else none := rfl

theorem within_charsetParameter : Within 0x2C charsetParameter where
  head t := by
    rw [charsetParameter_eq, if_neg]
    simp [show utf16 "charset" = [0x63, 0x68, 0x61, 0x72, 0x73, 0x65, 0x74] by decide]
  cut u s t := by
    have hword : (utf16 "charset").isPrefixOf (u :: s ++ 0x2C :: t) = (utf16 "charset").isPrefixOf (u :: s) := by
      rw [Bool.eq_iff_iff, List.isPrefixOf_iff_prefix, List.isPrefixOf_iff_prefix]
      exact ⟨fun h => prefix_of_not_mem h (by decide), fun h => h.trans (List.prefix_append _ _)⟩
    have hwhite : isWhite 0x2C = false := by decide
    rw [← List.cons_append, charsetParameter_eq, charsetParameter_eq, hword]
    split_ifs with hname
    · have hlen : 7 ≤ (u :: s).length := (List.isPrefixOf_iff_prefix.mp hname).length_le
      rw [List.drop_append_of_le_length hlen, dropWhile_append_cons hwhite, charsetStars_append,
        dropWhile_append_cons hwhite]
      rcases (charsetStars (((u :: s).drop 7).dropWhile isWhite)).dropWhile isWhite with _ | ⟨w, rest⟩
      · rfl
      · by_cases hw : w = 0x3D
        · rw [hw, List.cons_append]
          simp only
          rw [dropWhile_append_cons hwhite, charsetValue_append]
          simp only [List.length_append]
          rw [Nat.add_sub_add_right]
        · rw [List.cons_append]
          split <;> simp_all
    · rfl
  short := by
    intro u s value n h
    rw [charsetParameter_eq] at h
    split_ifs at h
    split at h
    · have hn := (Prod.mk.inj (Option.some.inj h)).2
      simp only [List.length_cons] at hn
      omega
    · exact absurd h (by simp)

theorem foreignCharset_join : ∀ {values : List JsString},
    foreignCharset ((utf16 ", ").intercalate values) = values.any foreignCharset
  | [] => rfl
  | [v] => by simp
  | v :: w :: values => by
    have ih : foreignCharset ((utf16 ", ").intercalate (w :: values)) = (w :: values).any foreignCharset :=
      foreignCharset_join
    have hblank : charsetParameter (0x20 :: (utf16 ", ").intercalate (w :: values)) = none := by
      rw [charsetParameter_eq, if_neg]
      simp [show utf16 "charset" = [0x63, 0x68, 0x61, 0x72, 0x73, 0x65, 0x74] by decide]
    rw [List.any_cons, ← ih, join_cons_cons]
    unfold foreignCharset
    rw [matchAll_append within_charsetParameter, matchAll_of_none hblank, List.any_append]

end Join

/-! ## Requests that name more -/

/-- The body readings of a request. -/
def Request.readings (r : Request) : List JsString :=
  (r.body.map BodyReadings.list).getD []

section Added

variable (P : Platform)

/-- The second headers say that a body is JSON and no form, the first do not say JSON. -/
def NamesJsonAlone (headers headers' : List (JsString × JsString)) : Prop :=
  includes (contentType P headers) (utf16 "json") = false ∧
    includes (contentType P headers') (utf16 "json") = true ∧
      includes (contentType P headers') (utf16 "application/x-www-form-urlencoded") = false

/-- One header, one query parameter or one reading of the body is added to a request, at any place. -/
inductive Adds : Request → Request → Prop
  | header (r : Request) (before after : List (JsString × JsString)) (h : JsString × JsString)
      (hr : r.headers = before ++ after) (hkept : ¬ NamesJsonAlone P r.headers (before ++ h :: after)) :
      Adds r { r with headers := before ++ h :: after }
  | query (r : Request) (url : JsString) (before after : List (JsString × JsString))
      (q : JsString × JsString) (hr : P.searchParams r.url = some (before ++ after))
      (hurl : P.searchParams url = some (before ++ q :: after)) : Adds r { r with url := url }
  | reading (r : Request) (body : BodyReadings) (before after : List JsString) (reading : JsString)
      (hr : r.readings = before ++ after) (hbody : body.list = before ++ reading :: after) :
      Adds r { r with body := some body }

variable {P} {r r' : Request} {before after headers headers' : List (JsString × JsString)}
  {h : JsString × JsString}

/-- The candidates of the body. -/
theorem overrideCandidates_eq (r : Request) : overrideCandidates P r =
    (r.headers.filter fun h => OVERRIDE_HEADERS.contains (headerKey P h.1)).map Prod.snd ++
      (((P.searchParams r.url).getD []).filter fun q => isOverrideFieldName P q.1).map Prod.snd ++
        if isReadMethod (P.asMethod r.method) then []
        else r.readings.flatMap (readingCandidates P r.headers) := by
  unfold overrideCandidates Request.readings
  cases r.body with
  | none => simp
  | some body => rfl

variable (hlower : ∀ s t : JsString,
  P.toLowerCase (s ++ utf16 ", " ++ t) = P.toLowerCase s ++ utf16 ", " ++ P.toLowerCase t)

include hlower

theorem toLowerCase_join : ∀ values : List JsString,
    P.toLowerCase ((utf16 ", ").intercalate values) = (utf16 ", ").intercalate (values.map P.toLowerCase)
  | [] => rfl
  | [v] => by simp
  | v :: w :: values => by
    have ih := toLowerCase_join (w :: values)
    have hsplit : ∀ s t, P.toLowerCase (s ++ 0x2C :: 0x20 :: t) =
        P.toLowerCase s ++ 0x2C :: 0x20 :: P.toLowerCase t := fun s t => by
      simpa [commaBlank] using hlower s t
    rw [join_cons_cons, hsplit, ih, List.map_cons, List.map_cons, List.map_cons, join_cons_cons]

/-- The values that make the content type, in lower case. -/
theorem contentType_eq (headers : List (JsString × JsString)) : contentType P headers =
    (utf16 ", ").intercalate (((headers.filter fun h => P.toLowerCase (trim h.1) = utf16 "content-type").map
      Prod.snd).map P.toLowerCase) :=
  toLowerCase_join hlower _

theorem includes_contentType (word : JsString) (hne : word ≠ []) (hcomma : 0x2C ∉ word)
    (hblank : 0x20 ∉ word) (hsub : headers ⊆ headers') (h : includes (contentType P headers) word = true) :
    includes (contentType P headers') word = true := by
  rw [includes_iff hne, contentType_eq hlower, infix_join hne hcomma hblank] at h ⊢
  obtain ⟨v, hmem, hword⟩ := h
  exact ⟨v, List.map_subset _ (List.map_subset _ (List.filter_subset _ hsub)) hmem, hword⟩

theorem foreignCharset_contentType (hsub : headers ⊆ headers')
    (h : foreignCharset (contentType P headers) = true) :
    foreignCharset (contentType P headers') = true := by
  rw [contentType_eq hlower, foreignCharset_join, List.any_eq_true] at h ⊢
  obtain ⟨v, hmem, hv⟩ := h
  exact ⟨v, List.map_subset _ (List.map_subset _ (List.filter_subset _ hsub)) hmem, hv⟩

omit hlower in
theorem encodedBody_mono (hsub : headers ⊆ headers') (h : encodedBody P headers = true) :
    encodedBody P headers' = true := by
  unfold encodedBody at h ⊢
  rw [List.any_eq_true] at h ⊢
  obtain ⟨header, hmem, hcoding⟩ := h
  exact ⟨header, List.filter_subset _ hsub hmem, hcoding⟩

theorem unreadable_mono (hsub : headers ⊆ headers') {body : JsString}
    (h : (bodyOverrides P body headers).unreadable = true) :
    (bodyOverrides P body headers').unreadable = true := by
  have hjson := includes_contentType hlower (utf16 "json") (by decide) (by decide) (by decide) hsub
  have hmultipart := includes_contentType hlower (utf16 "multipart/")
    (by decide) (by decide) (by decide) hsub
  have hcharset := foreignCharset_contentType hlower hsub
  have hencoded := encodedBody_mono hsub (P := P)
  simp only [bodyOverrides, Bool.or_eq_true, Bool.and_eq_true] at h ⊢
  rcases h with ((⟨⟨hlooks, hnone⟩, hkey⟩ | hduplicate) | ⟨htype, hnames⟩) | ⟨hbody, hcoded | hforeign⟩
  · exact .inl (.inl (.inl ⟨⟨hlooks.imp_left hjson, hnone⟩, hkey⟩))
  · exact .inl (.inl (.inr hduplicate))
  · exact .inl (.inr ⟨hmultipart htype, hnames⟩)
  · exact .inr ⟨hbody, .inl (hencoded hcoded)⟩
  · exact .inr ⟨hbody, .inr (hcharset hforeign)⟩

omit hlower in
/-- What a reading names : fields of JSON and of a form, where their type is declared or they are known. -/
theorem mem_readingCandidates {reading raw : JsString} : raw ∈ readingCandidates P headers reading ↔
    (raw ∈ ((parse reading).map (methodFields P)).getD [] ∧
      (includes (contentType P headers) (utf16 "json") = true ∨ isKnown P raw = true)) ∨
    (raw ∈ ((urlSearchParams reading).filter fun f => isOverrideFieldName P f.1).map Prod.snd ∧
      (includes (contentType P headers) (utf16 "json") = true → (parse reading).isSome = true →
        includes (contentType P headers) (utf16 "application/x-www-form-urlencoded") = true) ∧
      (includes (contentType P headers) (utf16 "application/x-www-form-urlencoded") = true ∨
        isKnown P raw = true)) ∨
    ((bodyOverrides P reading headers).unreadable = true ∧ raw = utf16 "DELETE") := by
  have hdelete : raw ∈ (if (bodyOverrides P reading headers).unreadable then [utf16 "DELETE"] else []) ↔
      (bodyOverrides P reading headers).unreadable = true ∧ raw = utf16 "DELETE" := by
    split_ifs with h <;> simp [h]
  rw [readingCandidates, List.mem_append, List.mem_append, List.mem_filter, hdelete, ← or_assoc]
  refine or_congr_left ?_
  simp only [bodyOverrides]
  cases includes (contentType P headers) (utf16 "json") <;>
    cases includes (contentType P headers) (utf16 "application/x-www-form-urlencoded") <;>
      cases parse reading <;> simp [or_and_right, or_comm]

/-- A header that does not take the form reading away adds to what a reading of the body names. -/
theorem readingCandidates_mono (hsub : headers ⊆ headers') (hkept : ¬ NamesJsonAlone P headers headers')
    (reading : JsString) : readingCandidates P headers reading ⊆ readingCandidates P headers' reading := by
  have hjson := includes_contentType hlower (utf16 "json") (by decide) (by decide) (by decide) hsub
  have hform := includes_contentType hlower (utf16 "application/x-www-form-urlencoded")
    (by decide) (by decide) (by decide) hsub
  intro raw hraw
  rw [mem_readingCandidates] at hraw ⊢
  rcases hraw with ⟨hmem, hcounts⟩ | ⟨hmem, hread, hcounts⟩ | ⟨hset, hraw⟩
  · exact .inl ⟨hmem, hcounts.imp_left hjson⟩
  · refine .inr (.inl ⟨hmem, fun hjson' hparsed => ?_, hcounts.imp_left hform⟩)
    by_contra hnot
    refine hkept ⟨Bool.eq_false_iff.mpr fun hjson => ?_, hjson', Bool.eq_false_iff.mpr hnot⟩
    exact hnot (hform (hread hjson hparsed))
  · exact .inr (.inr ⟨unreadable_mono hlower hsub hset, hraw⟩)

omit hlower in
theorem Adds.method_eq (h : Adds P r r') : r'.method = r.method := by
  cases h <;> rfl

theorem Adds.candidates (h : Adds P r r') : overrideCandidates P r ⊆ overrideCandidates P r' := by
  have happend : ∀ {a a' b b' : List JsString}, a ⊆ a' → b ⊆ b' → a ++ b ⊆ a' ++ b' := fun ha hb =>
    List.append_subset.mpr ⟨List.subset_append_of_subset_left _ ha, List.subset_append_of_subset_right _ hb⟩
  have hinsert : ∀ {α : Type} (x : α) (l l' : List α), l ++ l' ⊆ l ++ x :: l' := fun x l l' =>
    ((List.sublist_cons_self x l').append_left l).subset
  rw [overrideCandidates_eq, overrideCandidates_eq, h.method_eq]
  cases h with
  | header before after h hr hkept =>
    have hsub : r.headers ⊆ before ++ h :: after := hr ▸ hinsert h before after
    refine happend (happend ?_ (List.Subset.refl _)) ?_
    · exact List.map_subset _ (List.filter_subset _ hsub)
    · split_ifs
      · exact List.Subset.refl _
      · intro raw hraw
        obtain ⟨reading, hmem, hraw⟩ := List.mem_flatMap.mp hraw
        exact List.mem_flatMap.mpr ⟨reading, hmem, readingCandidates_mono hlower hsub hkept reading hraw⟩
  | query url before after q hr hurl =>
    refine happend (happend (List.Subset.refl _) ?_) (List.Subset.refl _)
    rw [hr, hurl]
    exact List.map_subset _ (List.filter_subset _ (hinsert q before after))
  | reading body before after reading hr hbody =>
    refine happend (List.Subset.refl _) ?_
    have hsub : r.readings ⊆ body.list := by
      rw [hr, hbody]
      exact hinsert reading before after
    split_ifs
    · exact List.Subset.refl _
    · intro raw hraw
      obtain ⟨reading, hmem, hraw⟩ := List.mem_flatMap.mp hraw
      exact List.mem_flatMap.mpr ⟨reading, hsub hmem, hraw⟩

/-- A request that names more is gated no weaker. -/
theorem Adds.rank_le (h : Adds P r r') {m m' : JsString} (hm : effectiveWriteMethod P r = some m)
    (hm' : effectiveWriteMethod P r' = some m') : rank m ≤ rank m' := by
  obtain ⟨raw, hmem, hknown, rfl⟩ := exists_named hm
  refine rank_le_of_named hm' ?_ (not_blank_of_known hknown)
  rw [h.method_eq]
  exact List.cons_subset_cons _ (h.candidates hlower) hmem

end Added

/-! ## The gate method and the writes that are named -/

/-- The gate method has the greatest rank of what a request names, blank values apart ; it is a read exactly
when no write is named and else one of the writes ; and what is added to a request never lowers its rank,
unless a content type comes to name JSON alone. The case of a text in parts is that of the parts. -/
theorem effectiveWriteMethod_strongest {P : Platform}
    (hlower : ∀ s t : JsString,
      P.toLowerCase (s ++ utf16 ", " ++ t) = P.toLowerCase s ++ utf16 ", " ++ P.toLowerCase t)
    {r : Request} {m : JsString} (h : effectiveWriteMethod P r = some m) :
    IsGreatest {n | ∃ raw ∈ r.method :: overrideCandidates P r, P.asMethod raw ≠ [] ∧
      n = rank (P.asMethod raw)} (rank m) ∧
    (isReadMethod m = true ↔ writeMethodsNamed P r = []) ∧
    (isReadMethod m = false → m ∈ writeMethodsNamed P r) ∧
    ∀ r' m', Adds P r r' → effectiveWriteMethod P r' = some m' → rank m ≤ rank m' := by
  refine ⟨⟨?_, ?_⟩, isReadMethod_iff_no_write h, mem_writeMethodsNamed_of_write h,
    fun r' m' hadds hm' => hadds.rank_le hlower h hm'⟩
  · obtain ⟨raw, hmem, hknown, heq⟩ := exists_named h
    exact ⟨raw, hmem, not_blank_of_known hknown, by rw [heq]⟩
  · rintro n ⟨raw, hmem, hne, rfl⟩
    exact rank_le_of_named h hmem hne

/-- No letter beyond ASCII changes its case, and no URL has a query. -/
def plainPlatform : Platform :=
  ⟨fun _ u _ => [u], fun _ u _ => [u], fun _ => some []⟩

theorem changeCase_plain {ascii : UInt16 → UInt16} : ∀ (s before : JsString),
    changeCase ascii (fun _ u _ => [u]) before s = s.map fun u => if isAscii u then ascii u else u
  | [], _ => rfl
  | u :: s, before => by
    rw [changeCase, changeCase_plain s, List.map_cons]
    split_ifs <;> rfl

theorem plainPlatform_lower (s t : JsString) : plainPlatform.toLowerCase (s ++ utf16 ", " ++ t) =
    plainPlatform.toLowerCase s ++ utf16 ", " ++ plainPlatform.toLowerCase t := by
  unfold Platform.toLowerCase plainPlatform lowerCase
  rw [changeCase_plain, changeCase_plain, changeCase_plain, List.map_append, List.map_append]
  rfl

/-- A form whose first field is an override, and JSON as well. -/
def formRequest : Request :=
  ⟨utf16 "POST", [], utf16 "https://api.example.com/", some (.one (utf16 "[\"&_method=DELETE&\"]"))⟩

theorem effectiveWriteMethod_strongest_form :
    (isReadMethod (utf16 "DELETE") = true ↔ writeMethodsNamed plainPlatform formRequest = []) ∧
      utf16 "DELETE" ∈ writeMethodsNamed plainPlatform formRequest := by
  have h := effectiveWriteMethod_strongest plainPlatform_lower
    (show effectiveWriteMethod plainPlatform formRequest = some (utf16 "DELETE") by decide +kernel)
  exact ⟨h.2.1, h.2.2.1 (by decide)⟩

/-- A content type of JSON takes the form reading away, and with it the DELETE. -/
theorem json_type_lowers_the_rank : ¬ ∀ (r : Request) (h : JsString × JsString) (m m' : JsString),
    effectiveWriteMethod plainPlatform r = some m →
    effectiveWriteMethod plainPlatform { r with headers := h :: r.headers } = some m' →
    rank m ≤ rank m' := by
  intro hall
  have h := hall formRequest (utf16 "content-type", utf16 "application/json") (utf16 "DELETE") (utf16 "POST")
    (by decide +kernel) (by decide +kernel)
  exact absurd h (by decide)

end Lynox.Outbound
