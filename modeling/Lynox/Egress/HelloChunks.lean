import Lynox.Egress.HelloRead

/-!
# A hello that arrives in chunks

The bytes are looked at after each chunk, until the answer is another than `more`. The size limit
is tested only while bytes are missing. Where the last record that is read ends behind the limit,
the answer depends on the chunks (`firstAnswer_iff`).
-/

namespace Lynox.Egress

open Text Throws

/-- What `readHello` goes by : the first answer other than `more` on the growing buffer. -/
def firstAnswer (afterRetry : Bool) : (buf : Bytes) → (chunks : List Bytes) → HelloResult
  | buf, [] => parseClientHello buf afterRetry
  | buf, chunk :: chunks =>
    if parseClientHello buf afterRetry = .more then firstAnswer afterRetry (buf ++ chunk) chunks
    else parseClientHello buf afterRetry

/-! ## Where the answer is settled -/

/-- The length of the message, known before or read now. -/
def nextNeed (need : Option Nat) (hs : Bytes) : Except Unread (Option Nat) :=
  if need.isSome then .ok need else messageLength hs

/-- Where the record ends that completes the message or makes it bad. A message too large by its own
length is refused wherever it ends. -/
def settledRecords : Nat → (off : Nat) → Bytes → (hs : Bytes) → (need : Option Nat) → Option Nat
  | 0, _, _, _, _ => none
  | n + 1, off, buf, hs, need =>
    if (need.filter (· ≤ hs.length)).isSome then some off
    else
      match recordHead buf with
      | none => none
      | some (type, len, body) =>
        if type ≠ 22 ∨ len = 0 ∨ 16384 + 2048 < len then some (off + 5)
        else if body.length < len then none
        else
          match nextNeed need (hs ++ body.take len) with
          | .error (.bad "hello too large") => none
          | .error _ => some (off + 5 + len)
          | .ok need => settledRecords n (off + 5 + len) (body.drop len) (hs ++ body.take len) need

/-- The same behind what may stand before a second hello. A record that begins there is held to the
limit by its own test. -/
def settledBeforeSecond : Nat → (off : Nat) → Bytes → (ccs : Nat) → Option Nat
  | 0, _, _, _ => none
  | n + 1, off, buf, ccs =>
    if buf.head? ≠ some 20 ∧ buf.head? ≠ some 23 then
      settledRecords (buf.length + 1) off buf [] none
    else
      match recordHead buf with
      | none => some (off + 1)
      | some (type, len, body) =>
        if len = 0 ∨ 16384 + 256 < len then some (off + 1)
        else if MAX_HELLO_BYTES < off + 5 + len ∨ body.length < len then none
        else if type = 20 ∧ (len ≠ 1 ∨ body.head? ≠ some 1 ∨ 1 < ccs + 1) then none
        else
          settledBeforeSecond n (off + 5 + len) (body.drop len) (if type = 20 then ccs + 1 else ccs)

def settledAt (afterRetry : Bool) (s : Bytes) : Option Nat :=
  if afterRetry then settledBeforeSecond (s.length + 1) 0 s 0
  else settledRecords (s.length + 1) 0 s [] none

section Records

variable {p x s buf hs : Bytes} {n m off k : Nat} {need : Option Nat}

theorem length_of_recordHead {type : UInt8} {len : Nat} {body : Bytes}
    (h : recordHead s = some (type, len, body)) : s.length = 5 + body.length := by
  match s, h with
  | _ :: _ :: _ :: _ :: _ :: _, rfl =>
    simp only [List.length_cons]
    omega

theorem length_of_no_recordHead (h : recordHead s = none) : s.length < 5 := by
  match s, h with
  | [], _ | [_], _ | [_, _], _ | [_, _, _], _ | [_, _, _, _], _ => simp
  | _ :: _ :: _ :: _ :: _ :: _, h => cases h

theorem settledRecords_of_head {type : UInt8} {len : Nat} {body : Bytes}
    (hmore : need.filter (· ≤ hs.length) = none) (hhead : recordHead buf = some (type, len, body)) :
    settledRecords (n + 1) off buf hs need =
      if type ≠ 22 ∨ len = 0 ∨ 16384 + 2048 < len then some (off + 5)
      else if body.length < len then none
      else
        match nextNeed need (hs ++ body.take len) with
        | .error (.bad "hello too large") => none
        | .error _ => some (off + 5 + len)
        | .ok need => settledRecords n (off + 5 + len) (body.drop len) (hs ++ body.take len) need := by
  rw [settledRecords, hmore, if_neg (by decide), hhead]

theorem settledRecords_of_complete {m : Nat} (h : need.filter (· ≤ hs.length) = some m) :
    settledRecords (n + 1) off buf hs need = some off := by
  simp [settledRecords, h]

theorem settledRecords_ge : ∀ {m off : Nat} {s hs : Bytes} {need : Option Nat},
    settledRecords m off s hs need = some k → off ≤ k
  | 0, _, _, _, _, h => by cases h
  | m + 1, off, s, hs, need, h => by
    unfold settledRecords at h
    split at h
    · cases h
      exact Nat.le_refl _
    · split at h
      · cases h
      · split at h
        · cases h
          exact Nat.le_add_right _ _
        · split at h
          · cases h
          · split at h
            · cases h
            · cases h
              omega
            · have := settledRecords_ge h
              omega

/-- Before the message is complete, a record that cannot be read settles the answer at its head, and
any other not before its end. -/
theorem settledRecords_eq_some (hmore : need.filter (· ≤ hs.length) = none)
    (h : settledRecords m off s hs need = some k) : ∃ type len body,
      recordHead s = some (type, len, body) ∧
        ((type ≠ 22 ∨ len = 0 ∨ 16384 + 2048 < len) ∧ k = off + 5 ∨
          len ≤ body.length ∧ off + 5 + len ≤ k) := by
  cases m with
  | zero => cases h
  | succ m =>
    cases hhead : recordHead s with
    | none =>
      rw [settledRecords, hmore, if_neg (by decide), hhead] at h
      cases h
    | some head =>
      obtain ⟨type, len, body⟩ := head
      refine ⟨type, len, body, rfl, ?_⟩
      rw [settledRecords_of_head hmore hhead] at h
      split at h
      · next hbad =>
        cases h
        exact .inl ⟨hbad, rfl⟩
      · split at h
        · cases h
        · next hall =>
          refine .inr ⟨Nat.not_lt.1 hall, ?_⟩
          split at h
          · cases h
          · cases h
            exact Nat.le_refl _
          · exact settledRecords_ge h

theorem readRecords_of_complete {m : Nat} (h : need.filter (· ≤ hs.length) = some m) :
    readRecords (n + 1) off buf hs need = .ok (off, hs, m) := by
  rw [readRecords, h]

/-- Without a whole head, as many bytes as the limit are too many. -/
theorem readRecords_of_no_head (hmore : need.filter (· ≤ hs.length) = none)
    (hhead : recordHead buf = none) :
    readRecords (n + 1) off buf hs need =
      .error (if MAX_HELLO_BYTES ≤ off + buf.length then .bad "hello too large" else .more) := by
  rw [readRecords, hmore]
  simp only [hhead]

/-- A record whose head is there. -/
theorem readRecords_of_head {type : UInt8} {len : Nat} {body : Bytes}
    (hmore : need.filter (· ≤ hs.length) = none) (hhead : recordHead buf = some (type, len, body)) :
    readRecords (n + 1) off buf hs need =
      if type ≠ 22 then .error (.bad "not a TLS handshake")
      else if len = 0 ∨ 16384 + 2048 < len then .error (.bad "bad record length")
      else if body.length < len then
        .error (if MAX_HELLO_BYTES < off + 5 + len then .bad "hello too large" else .more)
      else nextNeed need (hs ++ body.take len) >>= fun need =>
        readRecords n (off + 5 + len) (body.drop len) (hs ++ body.take len) need := by
  rw [readRecords, hmore]
  simp only [hhead, nextNeed]
  cases need <;> rfl

/-- Where nothing settles the answer, it is the limit's as soon as as many bytes are there. -/
theorem readRecords_of_unsettled : ∀ {m off : Nat} {s hs : Bytes} {need : Option Nat},
    settledRecords m off s hs need = none → s.length < m → MAX_HELLO_BYTES ≤ off + s.length →
      readRecords m off s hs need = .error (.bad "hello too large")
  | 0, _, _, _, _, _, hm, _ => absurd hm (Nat.not_lt_zero _)
  | m + 1, off, s, hs, need, hset, hm, hmax => by
    unfold settledRecords at hset
    cases hfilter : need.filter (· ≤ hs.length) with
    | some k =>
      rw [hfilter] at hset
      cases hset
    | none =>
      rw [hfilter, if_neg (by decide)] at hset
      cases hhead : recordHead s with
      | none => rw [readRecords_of_no_head hfilter hhead, if_pos hmax]
      | some head =>
        obtain ⟨type, len, body⟩ := head
        have hlength := length_of_recordHead hhead
        rw [hhead] at hset
        dsimp only at hset
        rw [readRecords_of_head hfilter hhead]
        split at hset
        · cases hset
        · next hgood =>
          rw [not_or] at hgood
          rw [if_neg hgood.1, if_neg hgood.2]
          split at hset
          · next hshort => rw [if_pos hshort, if_pos (by omega)]
          · next hall =>
            rw [if_neg hall]
            split at hset
            · next hlarge =>
              rw [hlarge]
              rfl
            · cases hset
            · next need' hneed' =>
              rw [hneed']
              refine readRecords_of_unsettled hset ?_ ?_
              · rw [List.length_drop]
                omega
              · rw [List.length_drop]
                omega

/-- Of a start of the bytes more is asked for, or the answer is theirs. -/
theorem readRecords_append : ∀ {m n off : Nat} {p hs : Bytes} {need : Option Nat},
    (∀ k, settledRecords m off (p ++ x) hs need = some k → k ≤ MAX_HELLO_BYTES) →
      (p ++ x).length < m →
        readRecords n off p hs need = .error .more ∨
          readRecords n off p hs need = readRecords m off (p ++ x) hs need
  | 0, _, _, _, _, _, _, hm => absurd hm (Nat.not_lt_zero _)
  | _, 0, _, _, _, _, _, _ => .inl rfl
  | m + 1, n + 1, off, p, hs, need, hset, hm => by
    cases hfilter : need.filter (· ≤ hs.length) with
    | some k => exact .inr (by rw [readRecords_of_complete hfilter, readRecords_of_complete hfilter])
    | none =>
      cases hhead : recordHead p with
      | none =>
        rw [readRecords_of_no_head hfilter hhead]
        split
        · next hmax =>
          have hshort := length_of_no_recordHead hhead
          refine .inr (readRecords_of_unsettled ?_ hm ?_).symm
          · refine Option.eq_none_iff_forall_ne_some.2 fun k hk => ?_
            have hle := hset k hk
            obtain ⟨_, _, _, _, ⟨_, hge⟩ | ⟨_, hge⟩⟩ := settledRecords_eq_some hfilter hk
            all_goals omega
          · rw [List.length_append]
            omega
        · exact .inl rfl
      | some head =>
        obtain ⟨type, len, body⟩ := head
        have hhead' := recordHead_append hhead x
        have hlength := length_of_recordHead hhead
        rw [readRecords_of_head hfilter hhead]
        by_cases h22 : type ≠ 22
        · exact .inr (by rw [readRecords_of_head hfilter hhead', if_pos h22, if_pos h22])
        · by_cases hlen : len = 0 ∨ 16384 + 2048 < len
          · exact .inr (by
              rw [readRecords_of_head hfilter hhead', if_neg h22, if_neg h22, if_pos hlen,
                if_pos hlen])
          · rw [if_neg h22, if_neg hlen]
            rcases Nat.lt_or_ge body.length len with hshort | hall
            · rw [if_pos hshort]
              split
              · next hmax =>
                right
                by_cases hall : (body ++ x).length < len
                · rw [readRecords_of_head hfilter hhead', if_neg h22, if_neg hlen, if_pos hall,
                    if_pos hmax]
                · refine (readRecords_of_unsettled ?_ hm ?_).symm
                  · refine Option.eq_none_iff_forall_ne_some.2 fun k hk => ?_
                    have hle := hset k hk
                    obtain ⟨_, _, _, hhead'', hend⟩ := settledRecords_eq_some hfilter hk
                    rw [hhead'] at hhead''
                    cases hhead''
                    rcases hend with ⟨hbad, _⟩ | ⟨_, hend⟩
                    · exact hbad.elim h22 hlen
                    · omega
                  · rw [List.length_append] at hall ⊢
                    omega
              · exact .inl rfl
            · have htake : (body ++ x).take len = body.take len := List.take_append_of_le_length hall
              have hdrop : (body ++ x).drop len = body.drop len ++ x :=
                List.drop_append_of_le_length hall
              rw [settledRecords_of_head hfilter hhead', if_neg (not_or.2 ⟨h22, hlen⟩),
                if_neg (by rw [List.length_append]; omega), htake, hdrop] at hset
              rw [readRecords_of_head hfilter hhead', if_neg h22, if_neg hlen, if_neg (by omega),
                if_neg (by rw [List.length_append]; omega), htake, hdrop]
              cases hneed : nextNeed need (hs ++ body.take len) with
              | error e => exact .inr rfl
              | ok need' =>
                rw [hneed] at hset
                refine readRecords_append hset ?_
                rw [← hdrop, List.length_drop, List.length_append]
                rw [List.length_append] at hm
                omega

/-- A settled answer is not the limit's. -/
theorem readRecords_of_settled : ∀ {m off : Nat} {s hs : Bytes} {need : Option Nat},
    settledRecords m off s hs need = some k →
      readRecords m off s hs need ≠ .error (.bad "hello too large")
  | 0, _, _, _, _, h => by cases h
  | m + 1, off, s, hs, need, h => by
    cases hfilter : need.filter (· ≤ hs.length) with
    | some k' =>
      simp [readRecords_of_complete hfilter]
    | none =>
      obtain ⟨type, len, body, hhead, _⟩ := settledRecords_eq_some hfilter h
      rw [settledRecords_of_head hfilter hhead] at h
      rw [readRecords_of_head hfilter hhead]
      split
      · simp
      · next h22 =>
        split
        · simp
        · next hlen =>
          rw [if_neg (not_or.2 ⟨h22, hlen⟩)] at h
          split
          · next hshort =>
            rw [if_pos hshort] at h
            cases h
          · next hall =>
            rw [if_neg hall] at h
            split at h
            · cases h
            · next e hne heq =>
              rw [heq]
              intro herror
              exact hne (Except.error.inj herror)
            · next need' heq =>
              rw [heq]
              exact readRecords_of_settled h

theorem recordHead_take {type : UInt8} {len : Nat} {body : Bytes}
    (h : recordHead s = some (type, len, body)) : recordHead (s.take 5) = some (type, len, []) := by
  match s, h with
  | _ :: _ :: _ :: _ :: _ :: _, rfl => rfl

theorem recordHead_of_short (h : s.length < 5) : recordHead s = none := by
  match s, h with
  | [], _ | [_], _ | [_, _], _ | [_, _, _], _ | [_, _, _, _], _ => rfl
  | _ :: _ :: _ :: _ :: _ :: _, h =>
    simp only [List.length_cons] at h
    omega

/-- Where the answer is settled behind the limit, some start of the bytes is too large. -/
theorem exists_front_tooLarge : ∀ {m off : Nat} {s hs : Bytes} {need : Option Nat},
    settledRecords m off s hs need = some k → MAX_HELLO_BYTES < k → off ≤ MAX_HELLO_BYTES →
      ∃ p, p <+: s ∧ ∀ n, p.length < n →
        readRecords n off p hs need = .error (.bad "hello too large")
  | 0, _, _, _, _, h, _, _ => by cases h
  | m + 1, off, s, hs, need, h, hk, hoff => by
    cases hfilter : need.filter (· ≤ hs.length) with
    | some k' =>
      rw [settledRecords_of_complete hfilter] at h
      cases h
      exact absurd hoff (Nat.not_le.2 hk)
    | none =>
      obtain ⟨type, len, body, hhead, hend⟩ := settledRecords_eq_some hfilter h
      have hlength := length_of_recordHead hhead
      rcases Nat.lt_or_ge MAX_HELLO_BYTES (off + 5) with hlate | hearly
      · -- the limit is reached before the head of the record is there
        have htake : (s.take (MAX_HELLO_BYTES - off)).length = MAX_HELLO_BYTES - off :=
          List.length_take_of_le (by omega)
        refine ⟨s.take (MAX_HELLO_BYTES - off), List.take_prefix _ _, fun n hn => ?_⟩
        obtain ⟨n, rfl⟩ := Nat.exists_eq_succ_of_ne_zero (Nat.ne_zero_of_lt hn)
        rw [Nat.succ_eq_add_one, readRecords_of_no_head hfilter (recordHead_of_short (by omega)),
          if_pos (by omega)]
      · rcases hend with ⟨_, rfl⟩ | ⟨hall, _⟩
        · exact absurd hearly (Nat.not_le.2 hk)
        · rw [settledRecords_of_head hfilter hhead] at h
          obtain ⟨r, htype, hcontent, hsplit⟩ := recordHead_eq_some hhead hall
          have hlen : len = r.payload.content.length := by
            rw [hcontent, List.length_take_of_le hall]
          split at h
          · cases h
            exact absurd hearly (Nat.not_le.2 hk)
          · next hgood =>
            rw [not_or] at hgood
            rw [if_neg (Nat.not_lt.2 hall)] at h
            rcases Nat.lt_or_ge MAX_HELLO_BYTES (off + 5 + len) with hlong | hfits
            · -- the head of the record says that it is too long
              refine ⟨s.take 5, List.take_prefix _ _, fun n hn => ?_⟩
              obtain ⟨n, rfl⟩ := Nat.exists_eq_succ_of_ne_zero (Nat.ne_zero_of_lt hn)
              rw [Nat.succ_eq_add_one, readRecords_of_head hfilter (recordHead_take hhead),
                if_neg hgood.1, if_neg hgood.2, if_pos (by rw [List.length_nil]; omega),
                if_pos hlong]
            · split at h
              · cases h
              · cases h
                exact absurd hfits (Nat.not_le.2 hk)
              · next need' hneed' =>
                obtain ⟨p, ⟨y, hp⟩, hread⟩ := exists_front_tooLarge h hk hfits
                rw [← hcontent] at hread hneed'
                refine ⟨r.encode ++ p, ?_, fun n hn => ?_⟩
                · rw [hsplit, ← hp, ← List.append_assoc]
                  exact List.prefix_append _ _
                · rw [List.length_append, Tls.length_encode] at hn
                  obtain ⟨n, rfl⟩ := Nat.exists_eq_succ_of_ne_zero (Nat.ne_zero_of_lt hn)
                  rw [Nat.succ_eq_add_one, readRecords_of_head hfilter (recordHead_encode r p), htype,
                    ← hlen, if_neg hgood.1, if_neg hgood.2,
                    if_neg (by rw [List.length_append, hlen]; omega), hlen, List.take_left,
                    List.drop_left, hneed', ← hlen]
                  exact hread n (by omega)

end Records

/-! ## Before a second hello -/

/-- The message behind what may stand before a second hello. -/
def readBehind (n off : Nat) (buf : Bytes) (ccs : Nat) : Except Unread (Nat × Bytes × Nat) :=
  skipBeforeSecond n off buf ccs >>= fun start =>
    readRecords (start.2.length + 1) start.1 start.2 [] none

section Second

variable {p x s buf body : Bytes} {type : UInt8} {n m off len ccs k : Nat}

/-- A record begins that may stand before a second hello. -/
def Skipped (buf : Bytes) : Prop :=
  ¬ (buf.head? ≠ some 20 ∧ buf.head? ≠ some 23)

theorem readBehind_of_other (h : ¬ Skipped buf) :
    readBehind (n + 1) off buf ccs = readRecords (buf.length + 1) off buf [] none := by
  rw [readBehind, skipBeforeSecond, if_pos (not_not.1 h)]
  rfl

theorem settledBeforeSecond_of_other (h : ¬ Skipped buf) :
    settledBeforeSecond (n + 1) off buf ccs = settledRecords (buf.length + 1) off buf [] none := by
  rw [settledBeforeSecond, if_pos (not_not.1 h)]

theorem not_skipped_nil : ¬ Skipped [] :=
  not_not.2 ⟨by simp, by simp⟩

theorem not_skipped_front (h : ¬ Skipped s) (hp : p <+: s) : ¬ Skipped p := by
  obtain ⟨x, rfl⟩ := hp
  cases p with
  | nil => exact not_skipped_nil
  | cons b p => exact h

theorem readBehind_of_no_head (h : Skipped buf) (hhead : recordHead buf = none) :
    readBehind (n + 1) off buf ccs = .error .more := by
  rw [readBehind, skipBeforeSecond, if_neg h, hhead]
  rfl

theorem readBehind_of_head (h : Skipped buf) (hhead : recordHead buf = some (type, len, body)) :
    readBehind (n + 1) off buf ccs =
      if len = 0 ∨ 16384 + 256 < len then .error (.bad "bad record length")
      else if MAX_HELLO_BYTES < off + 5 + len then .error (.bad "hello too large")
      else if body.length < len then .error .more
      else if type = 20 ∧ (len ≠ 1 ∨ body.head? ≠ some 1 ∨ 1 < ccs + 1) then
        .error (.bad "bad change_cipher_spec")
      else readBehind n (off + 5 + len) (body.drop len) (if type = 20 then ccs + 1 else ccs) := by
  rw [readBehind, skipBeforeSecond, if_neg h, hhead]
  dsimp only
  split
  · rfl
  · split
    · rfl
    · split
      · rfl
      · split <;> rfl

theorem settledBeforeSecond_of_head (h : Skipped buf)
    (hhead : recordHead buf = some (type, len, body)) :
    settledBeforeSecond (n + 1) off buf ccs =
      if len = 0 ∨ 16384 + 256 < len then some (off + 1)
      else if MAX_HELLO_BYTES < off + 5 + len ∨ body.length < len then none
      else if type = 20 ∧ (len ≠ 1 ∨ body.head? ≠ some 1 ∨ 1 < ccs + 1) then none
      else settledBeforeSecond n (off + 5 + len) (body.drop len)
        (if type = 20 then ccs + 1 else ccs) := by
  rw [settledBeforeSecond, if_neg h, hhead]

theorem head_append (hlen : len ≠ 0) (hall : len ≤ body.length) (x : Bytes) :
    (body ++ x).head? = body.head? := by
  cases body with
  | nil => exact absurd (Nat.le_zero.1 hall) hlen
  | cons b body => rfl

theorem head_take_append (hlen : len ≠ 0) (hall : len ≤ body.length) (x : Bytes) :
    (body.take len ++ x).head? = body.head? := by
  obtain ⟨k, rfl⟩ := Nat.exists_eq_succ_of_ne_zero hlen
  cases body with
  | nil => exact absurd (Nat.le_zero.1 hall) hlen
  | cons b body => rfl

theorem readBehind_nil :
    readBehind (n + 1) off [] ccs =
      .error (if MAX_HELLO_BYTES ≤ off then .bad "hello too large" else .more) := by
  rw [readBehind_of_other not_skipped_nil]
  exact readRecords_of_no_head rfl rfl

/-- Of a start of the bytes more is asked for, or the answer is theirs. -/
theorem readBehind_append : ∀ {m n off : Nat} {p : Bytes} {ccs : Nat},
    (∀ k, settledBeforeSecond m off (p ++ x) ccs = some k → k ≤ MAX_HELLO_BYTES) →
      (p ++ x).length < m → off ≤ MAX_HELLO_BYTES →
        readBehind n off p ccs = .error .more ∨
          readBehind n off p ccs = readBehind m off (p ++ x) ccs
  | 0, _, _, _, _, _, hm, _ => absurd hm (Nat.not_lt_zero _)
  | _, 0, _, _, _, _, _, _ => .inl rfl
  | m + 1, n + 1, off, p, ccs, hset, hm, hoff => by
    by_cases hkind : Skipped (p ++ x)
    · cases p with
      | nil =>
        rw [readBehind_nil]
        split
        · next hmax =>
          right
          rw [List.nil_append] at *
          cases hhead : recordHead x with
          | none =>
            rw [settledBeforeSecond, if_neg hkind, hhead] at hset
            exact absurd (hset _ rfl) (by omega)
          | some head =>
            obtain ⟨type, len, body⟩ := head
            rw [settledBeforeSecond_of_head hkind hhead] at hset
            rw [readBehind_of_head hkind hhead]
            split at hset
            · exact absurd (hset _ rfl) (by omega)
            · next hlen => rw [if_neg hlen, if_pos (by omega)]
        · exact .inl rfl
      | cons b p =>
        have hkind' : Skipped (b :: p) := hkind
        cases hhead : recordHead (b :: p) with
        | none => exact .inl (readBehind_of_no_head hkind' hhead)
        | some head =>
          obtain ⟨type, len, body⟩ := head
          have hhead' := recordHead_append hhead x
          have hlength := length_of_recordHead hhead
          rw [settledBeforeSecond_of_head hkind hhead'] at hset
          rw [readBehind_of_head hkind' hhead, readBehind_of_head hkind hhead']
          by_cases hlen : len = 0 ∨ 16384 + 256 < len
          · exact .inr (by rw [if_pos hlen, if_pos hlen])
          · rw [if_neg hlen, if_neg hlen]
            by_cases hlong : MAX_HELLO_BYTES < off + 5 + len
            · exact .inr (by rw [if_pos hlong, if_pos hlong])
            · rw [if_neg hlong, if_neg hlong]
              rcases Nat.lt_or_ge body.length len with hshort | hall
              · exact .inl (if_pos hshort)
              · have hall' : ¬ (body ++ x).length < len := by
                  rw [List.length_append]
                  omega
                have hfirst := head_append (fun h0 => hlen (.inl h0)) hall x
                have hdrop : (body ++ x).drop len = body.drop len ++ x :=
                  List.drop_append_of_le_length hall
                rw [if_neg hlen, if_neg (not_or.2 ⟨hlong, hall'⟩), hfirst, hdrop] at hset
                rw [if_neg (Nat.not_lt.2 hall), if_neg hall', hfirst, hdrop]
                split
                · exact .inr rfl
                · next hccs =>
                  rw [if_neg hccs] at hset
                  refine readBehind_append hset ?_ (Nat.not_lt.1 hlong)
                  rw [← hdrop, List.length_drop, List.length_append]
                  rw [List.length_append] at hm
                  omega
    · rw [settledBeforeSecond_of_other hkind] at hset
      rw [readBehind_of_other hkind, readBehind_of_other (not_skipped_front hkind ⟨x, rfl⟩)]
      exact readRecords_append hset (Nat.lt_succ_self _)

/-- Where the answer is settled behind the limit, some start of the bytes is too large and the bytes
are not. -/
theorem exists_front_behind : ∀ {m off : Nat} {s : Bytes} {ccs : Nat},
    settledBeforeSecond m off s ccs = some k → MAX_HELLO_BYTES < k → off ≤ MAX_HELLO_BYTES →
      readBehind m off s ccs ≠ .error (.bad "hello too large") ∧
        ∃ p, p <+: s ∧ ∀ n, p.length < n →
          readBehind n off p ccs = .error (.bad "hello too large")
  | 0, _, _, _, h, _, _ => by cases h
  | m + 1, off, s, ccs, h, hk, hoff => by
    by_cases hkind : Skipped s
    · have hnil : MAX_HELLO_BYTES ≤ off → ∃ p, p <+: s ∧ ∀ n, p.length < n →
          readBehind n off p ccs = .error (.bad "hello too large") := by
        intro hmax
        refine ⟨[], List.nil_prefix, fun n hn => ?_⟩
        obtain ⟨n, rfl⟩ := Nat.exists_eq_succ_of_ne_zero (Nat.ne_zero_of_lt hn)
        rw [Nat.succ_eq_add_one, readBehind_nil, if_pos hmax]
      cases hhead : recordHead s with
      | none =>
        rw [settledBeforeSecond, if_neg hkind, hhead] at h
        cases h
        exact ⟨by simp [readBehind_of_no_head hkind hhead], hnil (by omega)⟩
      | some head =>
        obtain ⟨type, len, body⟩ := head
        rw [settledBeforeSecond_of_head hkind hhead] at h
        rw [readBehind_of_head hkind hhead]
        split at h
        · next hlen =>
          cases h
          exact ⟨by simp [hlen], hnil (by omega)⟩
        · next hlen =>
          split at h
          · cases h
          · next hfits =>
            rw [not_or] at hfits
            split at h
            · cases h
            · next hccs =>
              have hall := Nat.not_lt.1 hfits.2
              obtain ⟨r, htype, hcontent, hsplit⟩ := recordHead_eq_some hhead hall
              have hlen' : r.payload.content.length = len := by
                rw [hcontent, List.length_take_of_le hall]
              obtain ⟨hne, p, ⟨y, hp⟩, hread⟩ := exists_front_behind h hk (Nat.not_lt.1 hfits.1)
              rw [if_neg hlen, if_neg hfits.1, if_neg hfits.2, if_neg hccs]
              refine ⟨hne, r.encode ++ p, ?_, fun n hn => ?_⟩
              · rw [hsplit, ← hp, ← List.append_assoc]
                exact List.prefix_append _ _
              · rw [List.length_append, Tls.length_encode] at hn
                obtain ⟨n, rfl⟩ := Nat.exists_eq_succ_of_ne_zero (Nat.ne_zero_of_lt hn)
                have hkind' : Skipped (r.encode ++ p) := by
                  rw [hsplit] at hkind
                  exact hkind
                have hfirst : (r.payload.content ++ p).head? = body.head? := by
                  rw [hcontent]
                  exact head_take_append (fun h0 => hlen (.inl h0)) hall p
                rw [Nat.succ_eq_add_one, readBehind_of_head hkind' (recordHead_encode r p), htype,
                  hlen', if_neg hlen, if_neg hfits.1,
                  if_neg (by rw [List.length_append, hlen']; omega), hfirst, if_neg hccs, ← hlen',
                  List.drop_left, hlen']
                exact hread n (by omega)
    · rw [settledBeforeSecond_of_other hkind] at h
      rw [readBehind_of_other hkind]
      obtain ⟨p, hp, hread⟩ := exists_front_tooLarge h hk hoff
      refine ⟨readRecords_of_settled h, p, hp, fun n hn => ?_⟩
      obtain ⟨n, rfl⟩ := Nat.exists_eq_succ_of_ne_zero (Nat.ne_zero_of_lt hn)
      rw [Nat.succ_eq_add_one, readBehind_of_other (not_skipped_front hkind hp)]
      exact hread _ (Nat.lt_succ_self _)

end Second

/-! ## The answer -/

section Answer

variable {afterRetry : Bool} {p s buf h : Bytes} {chunks : List Bytes} {off k : Nat}

theorem readUInt8_ne_tooLarge (h : Bytes) (p : Nat) : readUInt8 h p ≠ .error "hello too large" := by
  unfold readUInt8
  split <;> simp

theorem readUInt16BE_ne_tooLarge (h : Bytes) (p : Nat) :
    readUInt16BE h p ≠ .error "hello too large" := by
  unfold readUInt16BE
  split <;> simp

theorem readNames_ne_tooLarge (h : Bytes) (listEnd : Nat) : ∀ (n q : Nat) (sni : Option JsString),
    readNames h listEnd n q sni ≠ .error "hello too large"
  | 0, _, _ => by simp [readNames]
  | n + 1, q, sni => by
    unfold readNames
    split
    · simp
    · refine bind_ne_error (readUInt8_ne_tooLarge h q) fun nameType => ?_
      refine bind_ne_error (readUInt16BE_ne_tooLarge h (q + 1)) fun nameLen => ?_
      split
      · simp
      · split
        · split
          · simp
          · exact readNames_ne_tooLarge h listEnd n _ _
        · exact readNames_ne_tooLarge h listEnd n _ _

theorem readExtensions_ne_tooLarge (h : Bytes) (extEnd : Nat) :
    ∀ (n p : Nat) (sni : Option JsString),
      readExtensions h extEnd n p sni ≠ .error "hello too large"
  | 0, _, _ => by simp [readExtensions]
  | n + 1, p, sni => by
    unfold readExtensions
    split
    · simp
    · refine bind_ne_error (readUInt16BE_ne_tooLarge h p) fun type => ?_
      refine bind_ne_error (readUInt16BE_ne_tooLarge h (p + 2)) fun len => ?_
      split
      · simp
      · split
        · simp
        · split
          · refine bind_ne_error (readUInt16BE_ne_tooLarge h (p + 4)) fun listLen => ?_
            split
            · simp
            · exact bind_ne_error (readNames_ne_tooLarge h _ _ _ _) fun sni =>
                readExtensions_ne_tooLarge h extEnd n _ _
          · exact readExtensions_ne_tooLarge h extEnd n _ _

theorem readSni_ne_tooLarge (h : Bytes) : readSni h ≠ .error "hello too large" := by
  unfold readSni
  refine bind_ne_error (readUInt8_ne_tooLarge h _) fun session => ?_
  refine bind_ne_error (readUInt16BE_ne_tooLarge h _) fun ciphers => ?_
  refine bind_ne_error (readUInt8_ne_tooLarge h _) fun compression => ?_
  dsimp only
  split
  · simp
  · split
    · simp
    · refine bind_ne_error (readUInt16BE_ne_tooLarge h _) fun extensions => ?_
      split
      · simp
      · exact readExtensions_ne_tooLarge h _ _ _ _

/-- The answer for a message that was read, or not. -/
def answerOf : Except Unread (Nat × Bytes × Nat) → HelloResult
  | .error stop => stop.result
  | .ok (off, hs, need) =>
    if need < hs.length then .bad "more than one handshake message"
    else
      match readSni ((hs.take need).drop 4) with
      | .error e => .bad e
      | .ok sni => .hello sni off

def readMessage (afterRetry : Bool) (buf : Bytes) : Except Unread (Nat × Bytes × Nat) :=
  if afterRetry then readBehind (buf.length + 1) 0 buf 0
  else readRecords (buf.length + 1) 0 buf [] none

theorem parseClientHello_eq (afterRetry : Bool) (buf : Bytes) :
    parseClientHello buf afterRetry = answerOf (readMessage afterRetry buf) := by
  unfold parseClientHello readMessage answerOf
  cases afterRetry with
  | false => rfl
  | true =>
    rw [helloStart, if_pos rfl, if_pos rfl, readBehind]
    cases skipBeforeSecond (buf.length + 1) 0 buf 0 with
    | error stop => rfl
    | ok start => rfl

/-- Only the limit makes the answer the limit's. -/
theorem answerOf_tooLarge {r : Except Unread (Nat × Bytes × Nat)}
    (h : answerOf r = .bad "hello too large") : r = .error (.bad "hello too large") := by
  unfold answerOf at h
  split at h
  · next stop =>
    cases stop with
    | more => cases h
    | bad error =>
      cases h
      rfl
  · split at h
    · simp at h
    · split at h
      · next herror =>
        cases h
        exact absurd herror (readSni_ne_tooLarge _)
      · cases h

theorem answerOf_hello {r : Except Unread (Nat × Bytes × Nat)} {sni : Option JsString}
    (h : answerOf r = .hello sni k) : ∃ hs need, r = .ok (k, hs, need) := by
  unfold answerOf at h
  split at h
  · next stop => cases stop <;> cases h
  · next off hs need =>
    split at h
    · cases h
    · split at h
      · cases h
      · cases h
        exact ⟨hs, need, rfl⟩

/-- A message that was read settles the answer where it ends. -/
theorem settledRecords_of_ok : ∀ {m off : Nat} {s hs : Bytes} {need : Option Nat}
    {r : Bytes × Nat}, readRecords m off s hs need = .ok (k, r) →
      settledRecords m off s hs need = some k
  | 0, _, _, _, _, _, h => by cases h
  | m + 1, off, s, hs, need, r, h => by
    cases hfilter : need.filter (· ≤ hs.length) with
    | some k' =>
      rw [readRecords_of_complete hfilter] at h
      cases h
      exact settledRecords_of_complete hfilter
    | none =>
      cases hhead : recordHead s with
      | none =>
        rw [readRecords_of_no_head hfilter hhead] at h
        cases h
      | some head =>
        obtain ⟨type, len, body⟩ := head
        rw [readRecords_of_head hfilter hhead] at h
        rw [settledRecords_of_head hfilter hhead]
        split at h
        · cases h
        · next h22 =>
          split at h
          · cases h
          · next hlen =>
            split at h
            · cases h
            · next hall =>
              obtain ⟨need', hneed', h⟩ := ok_of_bind h
              rw [if_neg (not_or.2 ⟨h22, hlen⟩), if_neg hall, hneed']
              exact settledRecords_of_ok h

theorem settledBeforeSecond_of_ok : ∀ {m off : Nat} {s : Bytes} {ccs : Nat} {r : Bytes × Nat},
    readBehind m off s ccs = .ok (k, r) → settledBeforeSecond m off s ccs = some k
  | 0, _, _, _, _, h => by cases h
  | m + 1, off, s, ccs, r, h => by
    by_cases hkind : Skipped s
    · cases hhead : recordHead s with
      | none =>
        rw [readBehind_of_no_head hkind hhead] at h
        cases h
      | some head =>
        obtain ⟨type, len, body⟩ := head
        rw [readBehind_of_head hkind hhead] at h
        rw [settledBeforeSecond_of_head hkind hhead]
        split at h
        · cases h
        · next hlen =>
          split at h
          · cases h
          · next hlong =>
            split at h
            · cases h
            · next hall =>
              split at h
              · cases h
              · next hccs =>
                rw [if_neg hlen, if_neg (not_or.2 ⟨hlong, hall⟩), if_neg hccs]
                exact settledBeforeSecond_of_ok h
    · rw [readBehind_of_other hkind] at h
      rw [settledBeforeSecond_of_other hkind]
      exact settledRecords_of_ok h

theorem settledAt_of_hello {sni : Option JsString}
    (h : parseClientHello s afterRetry = .hello sni k) : settledAt afterRetry s = some k := by
  rw [parseClientHello_eq] at h
  obtain ⟨hs, need, hread⟩ := answerOf_hello h
  cases afterRetry with
  | false => exact settledRecords_of_ok hread
  | true => exact settledBeforeSecond_of_ok hread

/-- The answer to a start of bytes that are settled within the limit. -/
theorem parseClientHello_front (hset : ∀ k, settledAt afterRetry s = some k → k ≤ MAX_HELLO_BYTES)
    (hp : p <+: s) :
    parseClientHello p afterRetry = .more ∨
      parseClientHello p afterRetry = parseClientHello s afterRetry := by
  obtain ⟨x, rfl⟩ := hp
  rw [parseClientHello_eq, parseClientHello_eq]
  have hread : readMessage afterRetry p = .error .more ∨
      readMessage afterRetry p = readMessage afterRetry (p ++ x) := by
    cases afterRetry with
    | false => exact readRecords_append hset (Nat.lt_succ_self _)
    | true => exact readBehind_append hset (Nat.lt_succ_self _) (Nat.zero_le _)
  rcases hread with hread | hread
  · rw [hread]
    exact .inl rfl
  · exact .inr (congrArg answerOf hread)

/-- Bytes that are settled behind the limit have another answer than some start of them. -/
theorem exists_front_of_settled (hset : settledAt afterRetry s = some k) (hk : MAX_HELLO_BYTES < k) :
    parseClientHello s afterRetry ≠ .bad "hello too large" ∧
      ∃ p, p <+: s ∧ parseClientHello p afterRetry = .bad "hello too large" := by
  have hread : readMessage afterRetry s ≠ .error (.bad "hello too large") ∧
      ∃ p, p <+: s ∧ readMessage afterRetry p = .error (.bad "hello too large") := by
    cases afterRetry with
    | false =>
      obtain ⟨p, hp, hread⟩ := exists_front_tooLarge hset hk (Nat.zero_le _)
      exact ⟨readRecords_of_settled hset, p, hp, hread _ (Nat.lt_succ_self _)⟩
    | true =>
      obtain ⟨hne, p, hp, hread⟩ := exists_front_behind hset hk (Nat.zero_le _)
      exact ⟨hne, p, hp, hread _ (Nat.lt_succ_self _)⟩
  obtain ⟨hne, p, hp, hfront⟩ := hread
  refine ⟨?_, p, hp, ?_⟩
  · rw [parseClientHello_eq]
    exact fun h => hne (answerOf_tooLarge h)
  · rw [parseClientHello_eq, hfront]
    rfl

theorem firstAnswer_of_answer (h : parseClientHello buf afterRetry ≠ .more) :
    firstAnswer afterRetry buf chunks = parseClientHello buf afterRetry := by
  cases chunks with
  | nil => rfl
  | cons chunk chunks => rw [firstAnswer, if_neg h]

/-- The first answer is that of all the bytes, where it is that of every start of them with one. -/
theorem firstAnswer_eq (hfront : ∀ p, p <+: s → parseClientHello p afterRetry = .more ∨
    parseClientHello p afterRetry = parseClientHello s afterRetry) :
    ∀ {chunks : List Bytes} {buf : Bytes}, buf ++ chunks.flatten = s →
      firstAnswer afterRetry buf chunks = parseClientHello s afterRetry
  | [], buf, hs => by
    rw [List.flatten_nil, List.append_nil] at hs
    rw [firstAnswer, hs]
  | chunk :: chunks, buf, hs => by
    rw [firstAnswer]
    split
    · rw [List.flatten_cons, ← List.append_assoc] at hs
      exact firstAnswer_eq hfront hs
    · next hanswer => exact (hfront buf ⟨_, hs⟩).resolve_left hanswer

/-- The answer does not depend on the chunks, and no hello is accepted behind the limit, exactly
when nothing behind the limit settles the answer. -/
theorem firstAnswer_iff (afterRetry : Bool) (s : Bytes) :
    ((∀ buf chunks buf' chunks', buf ++ chunks.flatten = s → buf' ++ chunks'.flatten = s →
        firstAnswer afterRetry buf chunks = firstAnswer afterRetry buf' chunks') ∧
      ∀ buf chunks sni bytes, buf ++ chunks.flatten = s →
        firstAnswer afterRetry buf chunks = .hello sni bytes → bytes ≤ MAX_HELLO_BYTES) ↔
      ∀ k, settledAt afterRetry s = some k → k ≤ MAX_HELLO_BYTES := by
  constructor
  · intro ⟨hsame, _⟩ k hk
    by_contra hlong
    obtain ⟨hne, p, ⟨x, rfl⟩, hp⟩ := exists_front_of_settled hk (Nat.not_le.1 hlong)
    have hanswer := hsame p [x] (p ++ x) [] (by simp) (by simp)
    rw [firstAnswer_of_answer (by simp [hp]), hp] at hanswer
    exact hne hanswer.symm
  · intro hset
    have hanswer : ∀ buf chunks, buf ++ chunks.flatten = s →
        firstAnswer afterRetry buf chunks = parseClientHello s afterRetry :=
      fun _ _ => firstAnswer_eq fun p hp => parseClientHello_front hset hp
    refine ⟨fun buf chunks buf' chunks' hs hs' => ?_, fun buf chunks sni bytes hs hhello => ?_⟩
    · rw [hanswer buf chunks hs, hanswer buf' chunks' hs']
    · rw [hanswer buf chunks hs] at hhello
      exact hset bytes (settledAt_of_hello hhello)

end Answer

private theorem noSession_lt : ([] : Bytes).length < 256 ^ 1 := by decide

private theorem oneMethod_lt : ([0] : Bytes).length < 256 ^ 1 := by decide

private theorem length_start : (List.replicate 34 0 : Bytes).length = 34 := List.length_replicate

/-- A hello with many cipher suites. -/
private def largeHello : Tls.BareHello :=
  ⟨List.replicate 34 0, ⟨[], noSession_lt⟩,
    ⟨List.replicate 60000 0, List.length_replicate.trans_lt (by decide)⟩, ⟨[0], oneMethod_lt⟩, length_start⟩

/-- One byte of a message in each record. -/
private def singleBytes (message : Bytes) : List Tls.Record :=
  message.map fun b => ⟨22, (3, 1), ⟨[b], (by decide : 1 < 256 ^ 2)⟩⟩

private theorem payloads_singleBytes (message : Bytes) :
    Tls.payloads (singleBytes message) = message := by
  induction message with
  | nil => rfl
  | cons b message ih =>
    rw [singleBytes, List.map_cons, Tls.payloads_cons, ← singleBytes, ih]
    rfl

private theorem length_singleBytes (message : Bytes) :
    (Tls.recordBytes (singleBytes message)).length = 6 * message.length := by
  induction message with
  | nil => rfl
  | cons b message ih =>
    rw [singleBytes, List.map_cons, Tls.length_recordBytes_cons, ← singleBytes, ih,
      List.length_cons]
    simp only [List.length_cons, List.length_nil]
    omega

private theorem length_largeHello : largeHello.encode.length = 60039 := by
  have hciphers : largeHello.ciphers.content.length = 60000 := List.length_replicate
  rw [Tls.length_bare, hciphers]
  rfl

/-- In records of one byte each, a hello of 60043 bytes is accepted with 360258 when it comes at once,
and is too large when its start comes first. -/
theorem firstAnswer_depends_on_chunks : ∃ p x,
    firstAnswer false (p ++ x) [] = .hello none 360258 ∧
      firstAnswer false p [x] = .bad "hello too large" := by
  have hmessage : (Tls.Hello.bare largeHello).message.length = 60043 := by
    rw [Tls.Hello.message, List.length_append, Tls.Hello.encode, length_largeHello]
    rfl
  have hlen : (Tls.Hello.bare largeHello).encode.length < 2 ^ 24 := by
    rw [Tls.Hello.encode, length_largeHello]
    decide
  have hmax : (Tls.Hello.bare largeHello).message.length ≤ MAX_HELLO_BYTES := by
    rw [hmessage]
    decide
  have hrecords : ∀ r ∈ singleBytes (Tls.Hello.bare largeHello).message,
      (r.type = 22 ∧ r.payload.content ≠ []) ∧ r.payload.content.length ≤ 16384 + 2048 := by
    intro r hr
    obtain ⟨b, _, rfl⟩ := List.mem_map.1 hr
    exact ⟨⟨rfl, List.cons_ne_nil b []⟩, (by decide : 1 ≤ 16384 + 2048)⟩
  have hread : parseClientHello
      (Tls.recordBytes (singleBytes (Tls.Hello.bare largeHello).message)) false =
        .hello none 360258 := by
    rw [← List.append_nil (Tls.recordBytes _),
      parseClientHello_of_records hlen (fun r hr => (hrecords r hr).1) (payloads_singleBytes _)
        (fun r hr => (hrecords r hr).2) hmax,
      Tls.Hello.encode, readSni_bare, length_singleBytes, hmessage]
  obtain ⟨hne, p, ⟨x, hp⟩, hfront⟩ := exists_front_of_settled (settledAt_of_hello hread) (by decide)
  refine ⟨p, x, ?_, ?_⟩
  · rw [hp]
    exact hread
  · rw [firstAnswer_of_answer (by simp [hfront]), hfront]

end Lynox.Egress
