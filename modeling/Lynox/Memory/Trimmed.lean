import Lynox.Text.Matches

/-!
# The ceiling of a memory file

`trimMemoryContent` cuts a file that is too long at one place, the first line break behind which what
is left fits, or the last of all. It drops the lines that are dropped when the oldest goes while
the file is too long and holds another (`trimMemoryContent_eq_shiftLines`).
-/

namespace Lynox.Memory

open Text

def MAX_MEMORY_FILE_BYTES : ℕ := 256 * 1024

def newline : UInt16 := 0x0A

/-- The first place of a byte from a start. -/
def indexOfByte (b : UInt8) (buf : Bytes) (start : ℕ) : Option ℕ :=
  ((buf.drop start).findIdx? (· == b)).map (start + ·)

/-- The last place of a byte. -/
def lastIndexOfByte (b : UInt8) (buf : Bytes) : Option ℕ :=
  (buf.reverse.findIdx? (· == b)).map (buf.length - 1 - ·)

/-- A file cut to some bytes. -/
def trimTo (cap : ℕ) (content : JsString) : JsString :=
  let buf := utf8 content
  if buf.length ≤ cap then content
  else
    let start := buf.length - cap - 1
    match indexOfByte 0x0A buf start with
    | some p => decode (buf.drop (p + 1))
    | none =>
      match lastIndexOfByte 0x0A buf with
      | none => content
      | some last => decode (buf.drop (last + 1))

def trimMemoryContent (content : JsString) : JsString :=
  trimTo MAX_MEMORY_FILE_BYTES content

/-- Line by line : the oldest is dropped while the file is too long and holds another. -/
def shiftLines (cap : ℕ) : List JsString → List JsString
  | [] => []
  | [line] => [line]
  | line :: next :: lines =>
    if cap < byteLength (joinAt newline (line :: next :: lines)) then shiftLines cap (next :: lines)
    else line :: next :: lines

section Lines

variable {cap : ℕ} {content line rest : JsString} {lines : List JsString}

/-! ## Cutting bytes at a line break -/

theorem utf8_line (hline : WellFormed line) (hrest : WellFormed rest) :
    utf8 (line ++ newline :: rest) = utf8 line ++ 0x0A :: utf8 rest := by
  have hbreak : WellFormed [newline] := .units (n := 0x0A) (by decide)
  rw [List.append_cons, utf8_append (hline.append hbreak) hrest, utf8_append hline hbreak,
    show utf8 [newline] = [0x0A] by decide, List.append_assoc, List.singleton_append]

theorem newline_not_mem (h : WellFormed line) (hnot : newline ∉ line) : (0x0A : UInt8) ∉ utf8 line :=
  fun hmem => hnot (unit_of_mem_utf8 h hmem (by decide))

theorem indexOfByte_of_not_mem {b : UInt8} {buf : Bytes} (h : b ∉ buf) (start : ℕ) :
    indexOfByte b buf start = none := by
  rw [indexOfByte, List.findIdx?_eq_none_iff.2 fun c hc => by
    simpa using fun heq : c = b => h (heq ▸ List.mem_of_mem_drop hc), Option.map_none]

theorem lastIndexOfByte_of_not_mem {b : UInt8} {buf : Bytes} (h : b ∉ buf) :
    lastIndexOfByte b buf = none := by
  rw [lastIndexOfByte, List.findIdx?_eq_none_iff.2 fun c hc => by
    simpa using fun heq : c = b => h (heq ▸ List.mem_reverse.1 hc), Option.map_none]

/-- Up to its place, the first one is found. -/
theorem indexOfByte_first {b : UInt8} {first last : Bytes} (h : b ∉ first) {start : ℕ}
    (hstart : start ≤ first.length) : indexOfByte b (first ++ b :: last) start = some first.length := by
  rw [indexOfByte, List.drop_append_of_le_length hstart, List.findIdx?_append,
    List.findIdx?_eq_none_iff.2 fun c hc => by simpa using fun heq : c = b => h (heq ▸ List.mem_of_mem_drop hc),
    List.findIdx?_cons]
  simp only [beq_self_eq_true, if_true, Option.map_some, List.length_drop, Option.none_or]
  congr 1
  omega

/-- Behind it, one of the others is found. -/
theorem indexOfByte_behind {b c : UInt8} {first last : Bytes} (start : ℕ) :
    indexOfByte b (first ++ c :: last) (first.length + 1 + start) =
      (indexOfByte b last start).map (first.length + 1 + ·) := by
  rw [indexOfByte, indexOfByte, ← List.drop_drop,
    show (first ++ c :: last).drop (first.length + 1) = last by simp, Option.map_map]
  congr 1
  funext i
  simp only [Function.comp]
  omega

theorem lastIndexOfByte_append {b : UInt8} {first last : Bytes} :
    lastIndexOfByte b (first ++ b :: last) =
      some (((lastIndexOfByte b last).map (first.length + 1 + ·)).getD first.length) := by
  have hrev : (first ++ b :: last).reverse = last.reverse ++ b :: first.reverse := by simp
  rw [lastIndexOfByte, lastIndexOfByte, hrev, List.findIdx?_append, List.findIdx?_cons]
  cases hfound : last.reverse.findIdx? (· == b) with
  | none =>
    simp
  | some i =>
    have hi := (List.findIdx?_eq_some_iff_getElem.1 hfound).1
    simp only [List.length_reverse] at hi
    simp only [Option.some_or, Option.map_some, Option.getD_some, List.length_append, List.length_cons]
    congr 1
    omega

theorem drop_behind {c : UInt8} {first last : Bytes} (i : ℕ) :
    (first ++ c :: last).drop (first.length + 1 + i + 1) = last.drop (i + 1) := by
  rw [add_assoc, ← List.drop_drop, show (first ++ c :: last).drop (first.length + 1) = last by simp]

/-! ## One line less -/

theorem trimTo_of_line (hcontent : WellFormed content) (hnot : newline ∉ content) :
    trimTo cap content = content := by
  unfold trimTo
  dsimp only
  rw [indexOfByte_of_not_mem (newline_not_mem hcontent hnot),
    lastIndexOfByte_of_not_mem (newline_not_mem hcontent hnot)]
  exact ite_self content

/-- A file that is too long is cut as it is without its first line. -/
theorem trimTo_cons (hline : WellFormed line) (hrest : WellFormed rest) (hnot : newline ∉ line)
    (hlong : cap < byteLength (line ++ newline :: rest)) :
    trimTo cap (line ++ newline :: rest) = trimTo cap rest := by
  have hfirst := newline_not_mem hline hnot
  unfold trimTo
  unfold byteLength at hlong
  dsimp only
  rw [if_neg (by omega)]
  rw [utf8_line hline hrest] at hlong ⊢
  rw [List.length_append, List.length_cons] at hlong ⊢
  split_ifs with hshort
  · rw [indexOfByte_first hfirst (by omega)]
    dsimp only
    rw [show (utf8 line ++ 0x0A :: utf8 rest).drop ((utf8 line).length + 1) = utf8 rest by simp,
      decode_utf8 hrest]
  · rw [show (utf8 line).length + ((utf8 rest).length + 1) - cap - 1 =
      (utf8 line).length + 1 + ((utf8 rest).length - cap - 1) by omega, indexOfByte_behind]
    cases indexOfByte 0x0A (utf8 rest) ((utf8 rest).length - cap - 1) with
    | some p => simp only [Option.map_some, drop_behind]
    | none =>
      simp only [Option.map_none, lastIndexOfByte_append]
      cases lastIndexOfByte 0x0A (utf8 rest) with
      | some last => simp only [Option.map_some, Option.getD_some, drop_behind]
      | none =>
        simp only [Option.map_none, Option.getD_none]
        rw [show (utf8 line ++ 0x0A :: utf8 rest).drop ((utf8 line).length + 1) = utf8 rest by simp,
          decode_utf8 hrest]

theorem trimTo_of_le (h : byteLength content ≤ cap) : trimTo cap content = content :=
  if_pos h

/-- What is left is the last lines, and no more than fits unless it is one line. -/
theorem trimTo_spec (cap : ℕ) : ∀ {lines : List JsString} {content : JsString}, WellFormed content →
    split newline content = lines → trimTo cap content = joinAt newline (shiftLines cap lines) ∧
      shiftLines cap lines <:+ lines ∧ split newline (trimTo cap content) = shiftLines cap lines ∧
      WellFormed (trimTo cap content) ∧
      (byteLength (trimTo cap content) ≤ cap ∨ newline ∉ trimTo cap content)
  | [], content, _, h => absurd h (split_ne_nil newline content)
  | [line], content, hwell, h => by
    obtain ⟨hnot, ⟨-, rfl⟩ | ⟨rest, -, hrest⟩⟩ := split_cons h
    · rw [trimTo_of_line hwell hnot]
      exact ⟨(joinAt_singleton newline content).symm, List.suffix_refl _, h, hwell, .inr hnot⟩
    · exact absurd hrest (split_ne_nil newline rest)
  | line :: next :: lines, content, hwell, h => by
    obtain ⟨hnot, ⟨hnil, -⟩ | ⟨rest, rfl, hrest⟩⟩ := split_cons h
    · exact nomatch hnil
    obtain ⟨hline, hwellRest⟩ := hwell.of_append_cons (by decide)
    rw [shiftLines, joinAt_split h]
    split_ifs with hlong
    · obtain ⟨heq, hsuffix, hsplit, hout, hfits⟩ := trimTo_spec cap hwellRest hrest
      rw [trimTo_cons hline hwellRest hnot hlong]
      exact ⟨heq, hsuffix.trans (List.suffix_cons line _), hsplit, hout, hfits⟩
    · rw [trimTo_of_le (not_lt.1 hlong)]
      exact ⟨(joinAt_split h).symm, List.suffix_refl _, h, hwell, .inl (not_lt.1 hlong)⟩

end Lines

/-- One cut is the same as dropping line after line : what is left is the last lines of the file, whole
and well formed, fits unless it is one line, and is not cut again. -/
theorem trimMemoryContent_eq_shiftLines (content : JsString) (h : WellFormed content) :
    ∃ left, left = shiftLines MAX_MEMORY_FILE_BYTES (split newline content) ∧
      trimMemoryContent content = joinAt newline left ∧ left <:+ split newline content ∧ left ≠ [] ∧
      WellFormed (trimMemoryContent content) ∧
      (byteLength (trimMemoryContent content) ≤ MAX_MEMORY_FILE_BYTES ∨ left.length = 1) ∧
      trimMemoryContent (trimMemoryContent content) = trimMemoryContent content := by
  obtain ⟨heq, hsuffix, hsplit, hwell, hfits⟩ := trimTo_spec MAX_MEMORY_FILE_BYTES h rfl
  refine ⟨_, rfl, heq, hsuffix, hsplit ▸ split_ne_nil newline _, hwell, hfits.imp_right fun hnot => ?_, ?_⟩
  · rw [← hsplit, split_of_notMem hnot]
    rfl
  · exact hfits.elim trimTo_of_le fun hnot => trimTo_of_line hwell hnot

/-- Two short lines. -/
theorem trimMemoryContent_eq_shiftLines_of_short :
    ∃ left, left = shiftLines MAX_MEMORY_FILE_BYTES (split newline (utf16 "a\nb")) ∧
      trimMemoryContent (utf16 "a\nb") = joinAt newline left ∧ left <:+ split newline (utf16 "a\nb") ∧
      left ≠ [] ∧ WellFormed (trimMemoryContent (utf16 "a\nb")) ∧
      (byteLength (trimMemoryContent (utf16 "a\nb")) ≤ MAX_MEMORY_FILE_BYTES ∨ left.length = 1) ∧
      trimMemoryContent (trimMemoryContent (utf16 "a\nb")) = trimMemoryContent (utf16 "a\nb") :=
  trimMemoryContent_eq_shiftLines (utf16 "a\nb") (.utf16 "a\nb")

end Lynox.Memory
