import Mathlib.Algebra.Group.Int.Defs
import Mathlib.Algebra.Group.Nat.Defs
import Mathlib.Data.List.TakeWhile
import Mathlib.Tactic.Common

/-!
# Text helpers

`str::trim`, `str::trim_end_matches`, `str::contains` and `{:?}` on character lists, and
`String::from_utf8_lossy` on bytes; the last match of a pattern (`splitLast`), the lines of a text
(`lines`), and the bytes of a string and of a decimal number.
-/

namespace Text

/-- The Unicode `White_Space` property. -/
def isWhitespace (c : Char) : Bool :=
  let n := c.toNat
  (9 ≤ n && n ≤ 13) || n == 0x20 || n == 0x85 || n == 0xa0 || n == 0x1680 ||
    (0x2000 ≤ n && n ≤ 0x200a) || n == 0x2028 || n == 0x2029 || n == 0x202f || n == 0x205f ||
    n == 0x3000

/-- Drop the trailing characters that satisfy `f`. -/
def trimEnd (f : Char → Bool) (s : List Char) : List Char := (s.reverse.dropWhile f).reverse

/-- `str::trim`. -/
def trim (s : String) : String :=
  String.ofList (trimEnd isWhitespace (s.toList.dropWhile isWhitespace))

/-- `str::trim_end_matches` of one character. -/
def trimEndMatches (s : String) (c : Char) : String := String.ofList (trimEnd (· == c) s.toList)

/-- `str::contains`. -/
def contains (s pattern : String) : Bool := s.toList.tails.any pattern.toList.isPrefixOf

/-- A character of `{:?}`, for text in ASCII. -/
def debugChar (c : Char) : String :=
  match c with
  | '\x00' => "\\0"
  | '\t' => "\\t"
  | '\n' => "\\n"
  | '\r' => "\\r"
  | '\x22' => "\\\x22"
  | '\x5c' => "\\\\"
  | c =>
    if c.toNat < 0x20 ∨ c.toNat = 0x7f then
      "\\u\x7b" ++ String.ofList (Nat.toDigits 16 c.toNat) ++ "\x7d"
    else String.singleton c

/-- `{:?}` of a string. -/
def debug (s : String) : String := "\x22" ++ String.join (s.toList.map debugChar) ++ "\x22"

/-- The bytes a UTF-8 sequence that starts with `b` continues with, and the range of the first of
them. -/
def utf8Lead (b : UInt8) : Option (Nat × UInt8 × UInt8) :=
  if b < 0x80 then some (0, 0x80, 0xbf)
  else if 0xc2 ≤ b ∧ b ≤ 0xdf then some (1, 0x80, 0xbf)
  else if b = 0xe0 then some (2, 0xa0, 0xbf)
  else if b = 0xed then some (2, 0x80, 0x9f)
  else if 0xe1 ≤ b ∧ b ≤ 0xef then some (2, 0x80, 0xbf)
  else if b = 0xf0 then some (3, 0x90, 0xbf)
  else if 0xf1 ≤ b ∧ b ≤ 0xf3 then some (3, 0x80, 0xbf)
  else if b = 0xf4 then some (3, 0x80, 0x8f)
  else none

/-- How many of the `need` continuation bytes are there; the first is in `lo..=hi`. -/
def utf8Tail : Nat → UInt8 → UInt8 → List UInt8 → Nat
  | 0, _, _, _ | _, _, _, [] => 0
  | need + 1, lo, hi, b :: bs => if lo ≤ b ∧ b ≤ hi then utf8Tail need 0x80 0xbf bs + 1 else 0

/-- `String::from_utf8_lossy`: every maximal invalid piece becomes one replacement character. -/
def fromUtf8Lossy (bytes : List UInt8) : String :=
  go bytes.length bytes
where
  go : Nat → List UInt8 → String
    | 0, _ | _, [] => ""
    | fuel + 1, b :: bs =>
      match utf8Lead b with
      | none => "\ufffd" ++ go fuel bs
      | some (need, lo, hi) =>
        let have_ := utf8Tail need lo hi bs
        let piece := String.fromUTF8? ⟨(b :: bs.take have_).toArray⟩
        (if have_ = need then piece.getD "\ufffd" else "\ufffd") ++ go fuel (bs.drop have_)

/-! ## The last match of a pattern -/

section SplitLast

variable {α : Type} [DecidableEq α] {marker xs before after : List α}

/-- What stands before and after the last match of `marker`. -/
def splitLast (marker : List α) : List α → Option (List α × List α)
  | [] => none
  | x :: xs =>
    match splitLast marker xs with
    | some (before, after) => some (x :: before, after)
    | none => if marker.isPrefixOf (x :: xs) then some ([], (x :: xs).drop marker.length) else none

theorem eq_append_of_splitLast (h : splitLast marker xs = some (before, after)) :
    xs = before ++ marker ++ after := by
  induction xs generalizing before with
  | nil => cases h
  | cons x xs ih =>
    rw [splitLast] at h
    split at h
    · rename_i before' after' hrest
      cases h
      rw [ih hrest]
      rfl
    · split at h
      · rename_i hpre
        cases h
        obtain ⟨tail, htail⟩ := List.isPrefixOf_iff_prefix.mp hpre
        rw [← htail, List.drop_left, List.nil_append]
      · cases h

theorem splitLast_eq_none (hm : marker ≠ []) :
    splitLast marker xs = none ↔ xs.tails.any marker.isPrefixOf = false := by
  induction xs with
  | nil =>
    cases marker with
    | nil => exact absurd rfl hm
    | cons c cs => simp [splitLast]
  | cons x xs ih =>
    rw [splitLast, List.tails, List.any_cons, Bool.or_eq_false_iff, ← ih]
    cases hrest : splitLast marker xs with
    | some p => simp
    | none =>
      dsimp only
      by_cases hpre : marker.isPrefixOf (x :: xs) = true
      · rw [if_pos hpre, hpre]
        simp
      · rw [if_neg hpre, Bool.eq_false_iff.mpr hpre]
        simp

/-- The pattern starts with a letter that stands nowhere later. -/
theorem splitLast_append {c : α} (h : c ∉ marker ++ after) :
    splitLast (c :: marker) (before ++ (c :: marker) ++ after) = some (before, after) := by
  have hnone : ∀ xs : List α, c ∉ xs → splitLast (c :: marker) xs = none := by
    intro xs
    induction xs with
    | nil => exact fun _ => rfl
    | cons x xs ih =>
      intro hc
      rw [List.mem_cons, not_or] at hc
      obtain ⟨hx, hxs⟩ := hc
      rw [splitLast, ih hxs]
      simp [List.isPrefixOf, hx]
  induction before with
  | nil =>
    rw [List.nil_append, List.cons_append, splitLast, hnone _ h]
    have hpre : (c :: marker).isPrefixOf (c :: (marker ++ after)) = true :=
      List.isPrefixOf_iff_prefix.mpr ⟨after, rfl⟩
    simp [hpre]
  | cons x before ih =>
    rw [List.cons_append, List.cons_append, splitLast, ih]

end SplitLast

/-! ## Bytes of strings -/

theorem toList_byteArray (bytes : ByteArray) : bytes.toList = bytes.data.toList := by
  have hloop : ∀ i r, ByteArray.toList.loop bytes i r = r.reverse ++ bytes.data.toList.drop i := by
    intro i
    have hsize : bytes.size = bytes.data.toList.length := rfl
    induction hn : bytes.size - i generalizing i with
    | zero =>
      intro r
      rw [ByteArray.toList.loop, if_neg (by omega), List.drop_eq_nil_of_le (by omega),
        List.append_nil]
    | succ n ih =>
      intro r
      have hlt : i < bytes.data.toList.length := by omega
      have hget : bytes.get! i = bytes.data.toList[i] := by
        show bytes.data[i]! = _
        rw [getElem!_pos bytes.data i hlt]
        rfl
      rw [ByteArray.toList.loop, if_pos (by omega), ih (i + 1) (by omega),
        List.drop_eq_getElem_cons hlt, hget]
      simp
  rw [ByteArray.toList, hloop]
  simp

theorem toUTF8_toList (s : String) : s.toUTF8.toList = s.toList.flatMap String.utf8EncodeChar := by
  have hbytes : s.toByteArray = s.toList.utf8Encode := by simp
  rw [toList_byteArray, String.toUTF8_eq_toByteArray, hbytes]
  simp [List.utf8Encode]

theorem toUTF8_of_fromUTF8? {bytes : List UInt8} {s : String} (h : String.fromUTF8? ⟨bytes.toArray⟩ = some s) :
    s.toUTF8.toList = bytes := by
  unfold String.fromUTF8? at h
  split at h
  · cases h
    rw [toList_byteArray]
    rfl
  · cases h

/-- A letter of a lossy text is the replacement character, or its bytes were there. -/
theorem mem_fromUtf8Lossy {bytes : List UInt8} {c : Char} (h : c ∈ (fromUtf8Lossy bytes).toList) :
    c = '\ufffd' ∨ ∀ b ∈ String.utf8EncodeChar c, b ∈ bytes := by
  have hgo : ∀ (fuel : Nat) (bytes : List UInt8), c ∈ (fromUtf8Lossy.go fuel bytes).toList →
      c = '\ufffd' ∨ ∀ b ∈ String.utf8EncodeChar c, b ∈ bytes := by
    intro fuel
    induction fuel with
    | zero =>
      intro bytes hc
      simp [fromUtf8Lossy.go] at hc
    | succ fuel ih =>
      intro bytes hc
      cases bytes with
      | nil => simp [fromUtf8Lossy.go] at hc
      | cons b bs =>
        rw [fromUtf8Lossy.go] at hc
        cases hlead : utf8Lead b with
        | none =>
          simp only [hlead, String.toList_append, List.mem_append] at hc
          rcases hc with hc | hc
          · exact .inl (by simpa using hc)
          · exact (ih bs hc).imp_right fun hmem b' hb' => List.mem_cons_of_mem b (hmem b' hb')
        | some lead =>
          obtain ⟨need, lo, hi⟩ := lead
          simp only [hlead, String.toList_append, List.mem_append] at hc
          rcases hc with hc | hc
          · split at hc
            · cases hpiece : String.fromUTF8? ⟨(b :: bs.take (utf8Tail need lo hi bs)).toArray⟩ with
              | none =>
                rw [hpiece] at hc
                exact .inl (by simpa using hc)
              | some piece =>
                rw [hpiece, Option.getD_some] at hc
                right
                intro b' hb'
                have hbytes : b' ∈ piece.toUTF8.toList := by
                  rw [toUTF8_toList]
                  exact List.mem_flatMap.mpr ⟨c, hc, hb'⟩
                rw [toUTF8_of_fromUTF8? hpiece] at hbytes
                rcases List.mem_cons.mp hbytes with rfl | hbytes
                · exact List.mem_cons_self
                · exact List.mem_cons_of_mem b (List.mem_of_mem_take hbytes)
            · exact .inl (by simpa using hc)
          · exact (ih _ hc).imp_right fun hmem b' hb' =>
              List.mem_cons_of_mem b (List.mem_of_mem_drop (hmem b' hb'))
  exact hgo bytes.length bytes h

/-- A lossy text in which nothing was replaced has the bytes. -/
theorem toUTF8_fromUtf8Lossy {bytes : List UInt8} (h : '\ufffd' ∉ (fromUtf8Lossy bytes).toList) :
    (fromUtf8Lossy bytes).toUTF8.toList = bytes := by
  have hgo : ∀ (fuel : Nat) (bytes : List UInt8), bytes.length ≤ fuel →
      '\ufffd' ∉ (fromUtf8Lossy.go fuel bytes).toList → (fromUtf8Lossy.go fuel bytes).toUTF8.toList = bytes := by
    intro fuel
    induction fuel with
    | zero =>
      intro bytes hlen _
      rw [List.eq_nil_of_length_eq_zero (Nat.le_zero.mp hlen), toUTF8_toList]
      rfl
    | succ fuel ih =>
      intro bytes hlen hno
      cases bytes with
      | nil =>
        rw [toUTF8_toList]
        rfl
      | cons b bs =>
        rw [List.length_cons] at hlen
        rw [fromUtf8Lossy.go] at hno ⊢
        cases hlead : utf8Lead b with
        | none => simp [hlead] at hno
        | some lead =>
          obtain ⟨need, lo, hi⟩ := lead
          simp only [hlead, String.toList_append, List.mem_append, not_or] at hno ⊢
          obtain ⟨hfirst, hrest⟩ := hno
          have ih' := ih (bs.drop (utf8Tail need lo hi bs)) (by rw [List.length_drop]; omega) hrest
          split at hfirst
          · rename_i hall
            cases hpiece : String.fromUTF8? ⟨(b :: bs.take (utf8Tail need lo hi bs)).toArray⟩ with
            | none => simp [hpiece] at hfirst
            | some piece =>
              have hbytes := toUTF8_of_fromUTF8? hpiece
              rw [if_pos hall, Option.getD_some, toUTF8_toList, String.toList_append, List.flatMap_append,
                ← toUTF8_toList, ← toUTF8_toList, hbytes, ih', List.cons_append, List.take_append_drop]
          · simp at hfirst
  exact hgo bytes.length bytes (Nat.le_refl _) h

/-- The bytes of a decimal number. -/
def decimal (n : Int) : List UInt8 := (toString n).toUTF8.toList

/-- A minus sign and digits. -/
theorem decimal_bytes {n : Int} {b : UInt8} (h : b ∈ decimal n) : b = 45 ∨ 48 ≤ b ∧ b ≤ 57 := by
  rw [decimal, toUTF8_toList, List.mem_flatMap] at h
  obtain ⟨c, hc, hb⟩ := h
  have hdigit : ∀ m : Nat, c ∈ m.repr.toList → c.isDigit = true := by
    intro m hm
    rw [Nat.repr, String.toList_ofList] at hm
    exact Nat.isDigit_of_mem_toDigits (by decide) (by decide) hm
  have hchar : c = '-' ∨ c.isDigit = true := by
    have hrepr : toString n = n.repr := rfl
    rw [hrepr] at hc
    cases n with
    | ofNat m => exact .inr (hdigit m hc)
    | negSucc m =>
      have hcons : c ∈ ("-" ++ m.succ.repr).toList := hc
      rw [String.toList_append, List.mem_append] at hcons
      rcases hcons with hcons | hcons
      · exact .inl (by simpa using hcons)
      · exact .inr (hdigit _ hcons)
  rcases hchar with rfl | hd
  · exact .inl (by simpa [String.utf8EncodeChar] using hb)
  · right
    simp only [Char.isDigit, Bool.and_eq_true, decide_eq_true_eq, UInt32.le_iff_toNat_le] at hd
    have h0 : ('0' : Char).val.toNat = 48 := rfl
    have h9 : ('9' : Char).val.toNat = 57 := rfl
    have hsize : c.utf8Size = 1 := by
      have hascii : c.val ≤ 0x7f := by
        rw [UInt32.le_iff_toNat_le]
        exact Nat.le_trans hd.2 (by decide)
      exact if_pos hascii
    rw [String.utf8EncodeChar_eq_singleton hsize, List.mem_singleton] at hb
    subst hb
    have hlow : c.val.toUInt8.toNat = c.val.toNat := by
      rw [UInt32.toNat_toUInt8]
      omega
    rw [UInt8.le_iff_toNat_le, UInt8.le_iff_toNat_le, hlow]
    exact hd

/-! ## Lines -/

/-- Drop one carriage return at the end. -/
def stripCr (line : List Char) : List Char := if line.getLast? = some '\r' then line.dropLast else line

/-- `str::lines` of the rest of a text, when the current line began with the reverse of `line`. -/
def linesFrom (line : List Char) : List Char → List (List Char)
  | [] => if line.isEmpty then [] else [line.reverse]
  | c :: text => if c = '\n' then stripCr line.reverse :: linesFrom [] text else linesFrom (c :: line) text

/-- `str::lines`. -/
def lines (text : List Char) : List (List Char) := linesFrom [] text

/-- `str::split_once` of one character, where a text without it is all before it. -/
def cut (sep : Char) (text : List Char) : List Char × Option (List Char) :=
  match text.dropWhile (· != sep) with
  | [] => (text, none)
  | _ :: rest => (text.takeWhile (· != sep), some rest)

variable {line text a : List Char} {sep : Char}

theorem linesFrom_append (line a text : List Char) :
    linesFrom line (a ++ '\n' :: text) = linesFrom line (a ++ ['\n']) ++ lines text := by
  induction a generalizing line with
  | nil => rfl
  | cons c a ih =>
    rw [List.cons_append, List.cons_append, linesFrom, linesFrom]
    split
    · rw [ih, List.cons_append]
    · exact ih (c :: line)

theorem stripCr_append (h : line.getLast? ≠ some '\r') : ∃ rest, stripCr (line ++ a) = line ++ rest := by
  unfold stripCr
  split
  · rename_i hcr
    rcases List.eq_nil_or_concat a with rfl | ⟨b, c, rfl⟩
    · rw [List.append_nil] at hcr
      exact absurd hcr h
    · rw [List.concat_eq_append, ← List.append_assoc, List.dropLast_concat]
      exact ⟨b, rfl⟩
  · exact ⟨a, rfl⟩

/-- The current line stays a line. -/
theorem mem_linesFrom (hcr : line.reverse.getLast? ≠ some '\r') (a : List Char) :
    ∃ rest, line.reverse ++ rest ∈ linesFrom line (a ++ ['\n']) := by
  have hgrow : ∀ (a more : List Char), ∃ rest, line.reverse ++ rest ∈ linesFrom (more ++ line) (a ++ ['\n']) := by
    intro a
    induction a with
    | nil =>
      intro more
      obtain ⟨rest, hrest⟩ := stripCr_append (a := more.reverse) hcr
      refine ⟨rest, ?_⟩
      rw [← hrest, ← List.reverse_append]
      exact List.mem_cons_self
    | cons c a ih =>
      intro more
      rw [List.cons_append, linesFrom]
      split
      · obtain ⟨rest, hrest⟩ := stripCr_append (a := more.reverse) hcr
        refine ⟨rest, ?_⟩
        rw [← hrest, ← List.reverse_append]
        exact List.mem_cons_self
      · exact ih (c :: more)
  exact hgrow a []

theorem cut_append (h : sep ∉ a) : cut sep (a ++ sep :: text) = (a, some text) := by
  have hall : ∀ c ∈ a, (c != sep) = true := by
    intro c hc
    rw [bne_iff_ne]
    rintro rfl
    exact h hc
  rw [cut, List.dropWhile_append_of_pos hall, List.takeWhile_append_of_pos hall]
  simp

/-- The first line of a text. -/
theorem linesFrom_eq_cons (line a : List Char) :
    ∃ rest, linesFrom line (a ++ ['\n']) = stripCr (line.reverse ++ a.takeWhile (· != '\n')) :: rest ∧
      ('\n' ∉ a → rest = []) := by
  induction a generalizing line with
  | nil => exact ⟨[], by simp [linesFrom], fun _ => rfl⟩
  | cons c a ih =>
    rw [List.cons_append, linesFrom]
    by_cases hc : c = '\n'
    · subst hc
      exact ⟨linesFrom [] (a ++ ['\n']), by simp, fun hno => absurd List.mem_cons_self hno⟩
    · obtain ⟨rest, hrest, hnil⟩ := ih (c :: line)
      refine ⟨rest, ?_, fun hno => hnil fun hmem => hno (List.mem_cons_of_mem c hmem)⟩
      rw [if_neg hc, hrest, List.takeWhile_cons_of_pos (by simpa using hc)]
      simp

theorem cut_eq_none (h : cut sep text = (a, none)) : text = a ∧ sep ∉ a := by
  unfold cut at h
  split at h
  · rename_i hdrop
    cases h
    refine ⟨rfl, fun hmem => ?_⟩
    have hall := List.dropWhile_eq_nil_iff.mp hdrop sep hmem
    simp at hall
  · cases h

theorem cut_eq_some {rest : List Char} (h : cut sep text = (a, some rest)) :
    text = a ++ sep :: rest ∧ sep ∉ a := by
  unfold cut at h
  split at h
  · cases h
  · rename_i c tail hdrop
    cases h
    have hc : (c != sep) = false := by
      have := List.head?_dropWhile_not (· != sep) text
      rw [hdrop] at this
      simpa using this
    have hsep : c = sep := by simpa using hc
    refine ⟨?_, fun hmem => ?_⟩
    · rw [hsep] at hdrop
      rw [← hdrop, List.takeWhile_append_dropWhile]
    · have := List.mem_takeWhile_imp hmem
      simp at this

end Text
