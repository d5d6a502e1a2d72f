import Mathlib.Data.Bool.AllAny
import KinVfs.Core.Path
import KinVfs.Lib.Json

/-!
# Write notifications

The shim (`crates/kin-vfs-shim/src/client.rs`) and the FUSE mount (`crates/kin-vfs-fuse/src/notify.rs`) post the
path of a write to the daemon, as the hex digits of its bytes, with the session of the process. They spell the
JSON body themselves, each with an escaper of its own: the shim's lets the control characters other than `\n`,
`\r` and `\t` stand as they are.

`notify_well_formed`: the daemon reads both requests back exactly when the session has no such character. It reads them
from the text that is sent as long as the host and the token do not break a line (`NotifyRequest.WellFormed.read`).
-/

namespace KinVfs

/-- The end of a line. -/
def crlf : String := "\r\n"

/-- Where a notification goes, the same in both crates. -/
structure NotifyTarget where
  host : String
  port : Nat
  token : Option String

namespace NotifyTarget

def authority (target : NotifyTarget) : String := target.host ++ ":" ++ toString target.port

/-- No header without a token. -/
def authHeader (target : NotifyTarget) : String :=
  match target.token with
  | some token => "Authorization: Bearer " ++ token ++ crlf
  | none => ""

end NotifyTarget

/-- Lowercase hex digits. -/
def Notify.hexEncode (bytes : Bytes) : List Char :=
  bytes.flatMap fun byte : UInt8 => [Nat.digitChar (byte >>> 4).toNat, Nat.digitChar (byte &&& 0x0f).toNat]

/-- `{:04x}`. -/
def hexFour (n : Nat) : List Char :=
  [Nat.digitChar (n / 4096 % 16), Nat.digitChar (n / 256 % 16), Nat.digitChar (n / 16 % 16),
    Nat.digitChar (n % 16)]

/-- A letter as the shim spells it in a JSON string. -/
def Shim.escapeChar (c : Char) : List Char :=
  match c with
  | '\\' => ['\\', '\\']
  | '\x22' => ['\\', '\x22']
  | '\n' => ['\\', 'n']
  | '\r' => ['\\', 'r']
  | '\t' => ['\\', 't']
  | c => [c]

/-- `escape_json_string` of the shim. -/
def Shim.escapeJsonString (s : String) : List Char := s.toList.flatMap Shim.escapeChar

/-- A letter as the FUSE mount spells it. -/
def Fuse.escapeChar (c : Char) : List Char :=
  match c with
  | '\x22' => ['\\', '\x22']
  | '\\' => ['\\', '\\']
  | '\n' => ['\\', 'n']
  | '\r' => ['\\', 'r']
  | '\t' => ['\\', 't']
  | c => if c.toNat < 0x20 then '\\' :: 'u' :: hexFour c.toNat else [c]

/-- `escape_json_string` of the FUSE mount. -/
def Fuse.escapeJsonString (value : String) : List Char := value.toList.flatMap Fuse.escapeChar

/-- The parts of a request that differ from one to the next. -/
structure NotifyRequest where
  host : String
  auth : String
  contentLength : Nat
  body : String

def NotifyRequest.text (r : NotifyRequest) : String :=
  ("POST /vfs/write-notify HTTP/1.1" ++ crlf) ++ ("Host: " ++ r.host ++ crlf) ++ r.auth ++
    ("Content-Type: application/json" ++ crlf) ++ ("Content-Length: " ++ toString r.contentLength ++ crlf) ++
    ("Connection: close" ++ crlf) ++ crlf ++ r.body

/-- The body, from the escaped session. -/
def notifyBody (path : Bytes) (session : Option (List Char)) : List Char :=
  "\x7b\"path\":\x7b\"bytes_hex\":\"".toList ++ (Notify.hexEncode path ++
    match session with
    | some session => "\"\x7d,\"session_id\":\"".toList ++ (session ++ "\"\x7d".toList)
    | none => "\"\x7d\x7d".toList)

/-- The request around a body. -/
def notifyRequest (target : NotifyTarget) (body : List Char) : NotifyRequest where
  host := target.authority
  auth := target.authHeader
  contentLength := (String.ofList body).utf8ByteSize
  body := String.ofList body

/-- `build_notify_request` of the shim; `session` is the one of its state. -/
def Shim.buildNotifyRequest (path : Bytes) (target : NotifyTarget) (session : Option String) : NotifyRequest :=
  notifyRequest target (notifyBody path (session.map Shim.escapeJsonString))

/-- `build_notify_request` of the FUSE mount. -/
def Fuse.buildNotifyRequest (path : VfsPath) (target : NotifyTarget) (session : Option String) : NotifyRequest :=
  notifyRequest target (notifyBody path.bytes (session.map Fuse.escapeJsonString))

/-! ## What the daemon reads -/

def Notify.lowerHexDigit (c : Char) : Option Nat :=
  if '0' ≤ c ∧ c ≤ '9' then some (c.toNat - '0'.toNat)
  else if 'a' ≤ c ∧ c ≤ 'f' then some (c.toNat - 'a'.toNat + 10)
  else none

/-- The bytes of lowercase hex digits. -/
def Notify.hexDecode : List Char → Option Bytes
  | [] => some []
  | high :: low :: rest => do
    let high ← Notify.lowerHexDigit high
    let low ← Notify.lowerHexDigit low
    let bytes ← Notify.hexDecode rest
    return UInt8.ofNat (16 * high + low) :: bytes
  | [_] => none

/-- The JSON value of a notification. -/
def notification (hex : List Char) (session : Option String) : Json.Value :=
  .object (("path".toList, .object [("bytes_hex".toList, .string hex)]) ::
    (session.map fun s => ("session_id".toList, Json.Value.string s.toList)).toList)

/-- The request says what it should. -/
structure NotifyRequest.WellFormed (r : NotifyRequest) (path : Bytes) (session : Option String) : Prop where
  length : r.contentLength = r.body.utf8ByteSize
  json : ∃ hex, Json.parse r.body.toList = some (notification hex session) ∧ Notify.hexDecode hex = some path

/-! ## Hex digits -/

theorem digitChar_plain {n : Nat} (h : n < 16) :
    Nat.digitChar n ≠ '\x22' ∧ Nat.digitChar n ≠ '\\' ∧ 0x20 ≤ (Nat.digitChar n).toNat := by
  revert n
  decide

theorem lowerHexDigit_digitChar {n : Nat} (h : n < 16) : Notify.lowerHexDigit (Nat.digitChar n) = some n := by
  revert n
  decide

theorem hexValue_digitChar {n : Nat} (h : n < 16) : Json.hexValue (Nat.digitChar n) = some n := by
  revert n
  decide

theorem nibbles (byte : UInt8) : (byte >>> 4).toNat = byte.toNat / 16 ∧ (byte &&& 0x0f).toNat = byte.toNat % 16 := by
  constructor
  · rw [UInt8.toNat_shiftRight]
    exact Nat.shiftRight_eq_div_pow byte.toNat 4
  · rw [UInt8.toNat_and]
    exact Nat.and_two_pow_sub_one_eq_mod byte.toNat 4

theorem hexEncode_plain (path : Bytes) :
    ∀ c ∈ Notify.hexEncode path, c ≠ '\x22' ∧ c ≠ '\\' ∧ 0x20 ≤ c.toNat := by
  intro c hc
  obtain ⟨byte, -, hc⟩ := List.mem_flatMap.mp hc
  obtain ⟨hhigh, hlow⟩ := nibbles byte
  have hbyte := byte.toNat_lt
  rw [hhigh, hlow] at hc
  rcases List.mem_pair.mp hc with rfl | rfl
  · exact digitChar_plain (by omega)
  · exact digitChar_plain (by omega)

theorem hexDecode_hexEncode (path : Bytes) : Notify.hexDecode (Notify.hexEncode path) = some path := by
  induction path with
  | nil => rfl
  | cons byte path ih =>
    obtain ⟨hhigh, hlow⟩ := nibbles byte
    have hbyte := byte.toNat_lt
    have hcons : Notify.hexEncode (byte :: path) =
        Nat.digitChar (byte.toNat / 16) :: Nat.digitChar (byte.toNat % 16) :: Notify.hexEncode path := by
      rw [← hhigh, ← hlow]
      rfl
    have hsum : 16 * (byte.toNat / 16) + byte.toNat % 16 = byte.toNat := Nat.div_add_mod byte.toNat 16
    rw [hcons, Notify.hexDecode, lowerHexDigit_digitChar (by omega), lowerHexDigit_digitChar (by omega), ih]
    simp only [Option.bind_eq_bind, Option.bind_some, hsum, UInt8.ofNat_toNat]
    rfl

/-! ## Escapes -/

/-- A letter that the shim's escaper lets stand though JSON does not. -/
def RawControl (c : Char) : Prop := c.toNat < 0x20 ∧ c ≠ '\n' ∧ c ≠ '\r' ∧ c ≠ '\t'

theorem unicodeEscape_hexFour {c : Char} (h : c.toNat < 0x20) (rest : List Char) :
    Json.unicodeEscape (hexFour c.toNat ++ rest) = some (c, rest) := by
  have hunit : Json.codeUnit (hexFour c.toNat ++ rest) = some (c.toNat, rest) := by
    simp only [hexFour, List.cons_append, List.nil_append, Json.codeUnit]
    rw [hexValue_digitChar (by omega), hexValue_digitChar (by omega), hexValue_digitChar (by omega),
      hexValue_digitChar (by omega)]
    simp only [Option.bind_eq_bind, Option.bind_some, Option.pure_def, Option.some.injEq, Prod.mk.injEq, and_true]
    omega
  rw [Json.unicodeEscape, hunit]
  simp only [Option.bind_eq_bind, Option.bind_some]
  rw [if_neg (by omega), if_neg (by omega), Char.ofNat_toNat]

/-- The letters that both escapers spell with a backslash. -/
theorem spells_escaped {enc : Char → List Char} {c e : Char} (henc : enc c = ['\\', e])
    (hread : ∀ rest, Json.escape (e :: rest) = some (c, rest)) :
    Json.Spells enc c fun rest => some (c, rest) where
  open_ := ⟨'\\', [e], henc, by decide⟩
  read rest := by
    rw [henc]
    exact hread rest

theorem spells_fuse (c : Char) : Json.Spells Fuse.escapeChar c fun rest => some (c, rest) := by
  by_cases hquote : c = '\x22'
  · subst hquote
    exact spells_escaped rfl fun _ => rfl
  by_cases hslash : c = '\\'
  · subst hslash
    exact spells_escaped rfl fun _ => rfl
  by_cases hnl : c = '\n'
  · subst hnl
    exact spells_escaped rfl fun _ => rfl
  by_cases hcr : c = '\r'
  · subst hcr
    exact spells_escaped rfl fun _ => rfl
  by_cases htab : c = '\t'
  · subst htab
    exact spells_escaped rfl fun _ => rfl
  have hself : Fuse.escapeChar c = if c.toNat < 0x20 then '\\' :: 'u' :: hexFour c.toNat else [c] := by
    unfold Fuse.escapeChar
    split
    all_goals first | contradiction | rfl
  by_cases hctrl : c.toNat < 0x20
  · rw [if_pos hctrl] at hself
    refine ⟨⟨'\\', _, hself, by decide⟩, fun rest => ?_⟩
    rw [hself]
    exact unicodeEscape_hexFour hctrl rest
  · rw [if_neg hctrl] at hself
    exact Json.spells_self hquote hslash (Nat.not_lt.mp hctrl) hself

theorem spells_shim {c : Char} (h : ¬ RawControl c) : Json.Spells Shim.escapeChar c fun rest => some (c, rest) := by
  by_cases hslash : c = '\\'
  · subst hslash
    exact spells_escaped rfl fun _ => rfl
  by_cases hquote : c = '\x22'
  · subst hquote
    exact spells_escaped rfl fun _ => rfl
  by_cases hnl : c = '\n'
  · subst hnl
    exact spells_escaped rfl fun _ => rfl
  by_cases hcr : c = '\r'
  · subst hcr
    exact spells_escaped rfl fun _ => rfl
  by_cases htab : c = '\t'
  · subst htab
    exact spells_escaped rfl fun _ => rfl
  have hself : Shim.escapeChar c = [c] := by
    unfold Shim.escapeChar
    split
    all_goals first | contradiction | rfl
  refine Json.spells_self hquote hslash (Nat.not_lt.mp fun hctrl => ?_) hself
  exact h ⟨hctrl, hnl, hcr, htab⟩

theorem spells_raw {c : Char} (h : RawControl c) : Json.Spells Shim.escapeChar c fun _ => none := by
  obtain ⟨hctrl, hnl, hcr, htab⟩ := h
  refine Json.spells_control hctrl ?_
  unfold Shim.escapeChar
  split
  all_goals first | contradiction | rfl

/-! ## Bodies -/

/-- The path in front of the rest of a body. -/
theorem members_path (path : Bytes) (fuel : Nat) (rest : List Char) :
    Json.members (fuel + 4) ('\x22' :: ("path".toList ++ '\x22' :: ':' :: '\x7b' :: '\x22' ::
        ("bytes_hex".toList ++ '\x22' :: ':' :: '\x22' :: (Notify.hexEncode path ++ '\x22' :: '\x7d' :: rest)))) =
      Json.afterMember (Json.members (fuel + 3)) "path".toList
        (.object [("bytes_hex".toList, .string (Notify.hexEncode path))], rest) := by
  rw [Json.members_key (List.all_iff_forall_prop.mp (by decide)), Json.value_object,
    Json.members_key (List.all_iff_forall_prop.mp (by decide)), Json.value_string,
    Json.quoted_plain (hexEncode_plain path)]
  rfl

/-- The session behind it. -/
theorem members_session (session : List Char) (fuel : Nat) :
    Json.members (fuel + 2) ('\x22' :: ("session_id".toList ++ '\x22' :: ':' :: '\x22' :: (session ++ ['\x22', '\x7d']))) =
      ((Json.stringTail (session ++ ['\x22', '\x7d']).length (session ++ ['\x22', '\x7d'])).map
        fun (s, rest) => (.string s, rest)).bind (Json.afterMember (Json.members (fuel + 1)) "session_id".toList) := by
  rw [Json.members_key (List.all_iff_forall_prop.mp (by decide)), Json.value_string]

theorem notifyBody_none (path : Bytes) :
    notifyBody path none = '\x7b' :: '\x22' :: ("path".toList ++ '\x22' :: ':' :: '\x7b' :: '\x22' ::
      ("bytes_hex".toList ++ '\x22' :: ':' :: '\x22' :: (Notify.hexEncode path ++ '\x22' :: '\x7d' :: ['\x7d']))) := by
  have hbody : notifyBody path none = "\x7b\"path\":\x7b\"bytes_hex\":\"".toList ++
      (Notify.hexEncode path ++ "\"\x7d\x7d".toList) := rfl
  rw [hbody]
  simp

theorem notifyBody_some (path : Bytes) (session : List Char) :
    notifyBody path (some session) = '\x7b' :: '\x22' :: ("path".toList ++ '\x22' :: ':' :: '\x7b' :: '\x22' ::
      ("bytes_hex".toList ++ '\x22' :: ':' :: '\x22' :: (Notify.hexEncode path ++ '\x22' :: '\x7d' ::
        (',' :: '\x22' :: ("session_id".toList ++ '\x22' :: ':' :: '\x22' :: (session ++ ['\x22', '\x7d'])))))) := by
  have hbody : notifyBody path (some session) = "\x7b\"path\":\x7b\"bytes_hex\":\"".toList ++
      (Notify.hexEncode path ++ ("\"\x7d,\"session_id\":\"".toList ++ (session ++ "\"\x7d".toList))) := rfl
  rw [hbody]
  simp

/-- A body is longer than it is deep. -/
theorem parse_notifyBody (path : Bytes) (session : Option (List Char)) (read : Option (Json.Value × List Char))
    (h : ∀ fuel, Json.value (fuel + 5) (notifyBody path session) = read) :
    Json.parse (notifyBody path session) = Json.finish read := by
  have hlength : 4 ≤ (notifyBody path session).length := by
    cases session with
    | none =>
      rw [notifyBody_none]
      simp only [List.length_cons, List.length_append]
      omega
    | some session =>
      rw [notifyBody_some]
      simp only [List.length_cons, List.length_append]
      omega
  obtain ⟨fuel, hfuel⟩ := Nat.exists_eq_add_of_le' hlength
  rw [Json.parse, hfuel, h fuel]

theorem parse_notifyBody_none (path : Bytes) :
    Json.parse (notifyBody path none) = some (notification (Notify.hexEncode path) none) := by
  refine parse_notifyBody path none (some (notification (Notify.hexEncode path) none, [])) fun fuel => ?_
  rw [notifyBody_none, Json.value_object, members_path]
  rfl

theorem value_notifyBody (path : Bytes) (session : List Char) (fuel : Nat) :
    Json.value (fuel + 5) (notifyBody path (some session)) =
      ((Json.members (fuel + 3) ('\x22' :: ("session_id".toList ++ '\x22' :: ':' :: '\x22' ::
        (session ++ ['\x22', '\x7d'])))).map fun (members, rest) => (("path".toList, Json.Value.object
          [("bytes_hex".toList, .string (Notify.hexEncode path))]) :: members, rest)).map
            fun (members, rest) => (.object members, rest) := by
  rw [notifyBody_some, Json.value_object, members_path]
  rfl

theorem parse_notifyBody_some (path : Bytes) {session : List Char} {s : String}
    (h : Json.stringTail (session ++ ['\x22', '\x7d']).length (session ++ ['\x22', '\x7d']) =
      some (s.toList, ['\x7d'])) :
    Json.parse (notifyBody path (some session)) = some (notification (Notify.hexEncode path) (some s)) := by
  refine parse_notifyBody path (some session) (some (notification (Notify.hexEncode path) (some s), [])) fun fuel => ?_
  rw [value_notifyBody, members_session, h]
  rfl

/-- A session without an end makes no body. -/
theorem parse_notifyBody_unreadable (path : Bytes) {session : List Char}
    (h : Json.stringTail (session ++ ['\x22', '\x7d']).length (session ++ ['\x22', '\x7d']) = none) :
    Json.parse (notifyBody path (some session)) = none := by
  refine parse_notifyBody path (some session) none fun fuel => ?_
  rw [value_notifyBody, members_session, h]
  rfl

/-- A session that is read back makes the request well-formed. -/
theorem wellFormed_of_spells {enc : Char → List Char} (target : NotifyTarget) (path : Bytes) {session : Option String}
    (h : ∀ s ∈ session, ∀ c ∈ s.toList, Json.Spells enc c fun rest => some (c, rest)) :
    (notifyRequest target (notifyBody path (session.map fun s => s.toList.flatMap enc))).WellFormed path session := by
  refine ⟨rfl, Notify.hexEncode path, ?_, hexDecode_hexEncode path⟩
  rw [notifyRequest, String.toList_ofList]
  cases session with
  | none => exact parse_notifyBody_none path
  | some s => exact parse_notifyBody_some path (Json.quoted (h s rfl) ['\x7d'])

theorem exists_first_raw {text : List Char} (h : ∃ c ∈ text, RawControl c) :
    ∃ before c after, text = before ++ c :: after ∧ RawControl c ∧ ∀ b ∈ before, ¬ RawControl b := by
  obtain ⟨c, hc, hraw⟩ := h
  induction text with
  | nil => cases hc
  | cons d rest ih =>
    by_cases hd : RawControl d
    · exact ⟨[], d, rest, rfl, hd, nofun⟩
    · rcases List.mem_cons.mp hc with rfl | hc
      · exact absurd hraw hd
      · obtain ⟨before, c', after, hrest, hc', hbefore⟩ := ih hc
        refine ⟨d :: before, c', after, by rw [hrest]; rfl, hc', fun b hb => ?_⟩
        rcases List.mem_cons.mp hb with rfl | hb
        · exact hd
        · exact hbefore b hb

/-- The first raw control character ends the reading. -/
theorem not_wellFormed_of_raw (target : NotifyTarget) (path : Bytes) {s : String} (h : ∃ c ∈ s.toList, RawControl c) :
    ¬ (Shim.buildNotifyRequest path target (some s)).WellFormed path (some s) := by
  rintro ⟨-, hex, hparse, -⟩
  obtain ⟨before, c, after, hs, hraw, hbefore⟩ := exists_first_raw h
  have hunreadable : Json.parse (notifyBody path (some (Shim.escapeJsonString s))) = none := by
    refine parse_notifyBody_unreadable path ?_
    have htext : Shim.escapeJsonString s ++ ['\x22', '\x7d'] = before.flatMap Shim.escapeChar ++
        (Shim.escapeChar c ++ (after.flatMap Shim.escapeChar ++ ['\x22', '\x7d'])) := by
      rw [Shim.escapeJsonString, hs, List.flatMap_append, List.flatMap_cons]
      simp only [List.append_assoc]
    rw [htext]
    exact Json.stringTail_unreadable (fun b hb => spells_shim (hbefore b hb)) (spells_raw hraw) _ _
  rw [Shim.buildNotifyRequest, notifyRequest, Option.map_some, String.toList_ofList, hunreadable] at hparse
  cases hparse

/-- The mount's escaper needs no condition. -/
theorem fuse_notify_wellFormed (path : VfsPath) (target : NotifyTarget) (session : Option String) :
    (Fuse.buildNotifyRequest path target session).WellFormed path.bytes session :=
  wellFormed_of_spells target path.bytes fun _ _ c _ => spells_fuse c

/-! ## The request as it is sent -/

/-- The lines of the head, for a body of `length` bytes. -/
def NotifyTarget.headLines (target : NotifyTarget) (length : Nat) : List String :=
  ["POST /vfs/write-notify HTTP/1.1", "Host: " ++ target.authority] ++
    ((target.token.map fun token => "Authorization: Bearer " ++ token).toList ++
      ["Content-Type: application/json", "Content-Length: " ++ toString length, "Connection: close"])

/-- The letters up to the first line end, and those after it. -/
def httpLine : List Char → Option (List Char × List Char)
  | '\r' :: '\n' :: rest => some ([], rest)
  | c :: rest => (httpLine rest).map fun line => (c :: line.1, line.2)
  | [] => none

/-- The lines up to the empty one, which are fewer than `n`, and the body after it. -/
def httpHead : Nat → List Char → Option (List (List Char) × List Char)
  | 0, _ => none
  | n + 1, text =>
    (httpLine text).bind fun line =>
      if line.1 = [] then some ([], line.2) else (httpHead n line.2).map fun head => (line.1 :: head.1, head.2)

theorem httpLine_append {line rest : List Char} (h : '\r' ∉ line) :
    httpLine (line ++ '\r' :: '\n' :: rest) = some (line, rest) := by
  induction line with
  | nil => rfl
  | cons c line ih =>
    rw [List.mem_cons, not_or] at h
    rw [List.cons_append, httpLine, ih h.2]
    · rfl
    · rintro _ rfl
      exact absurd rfl h.1

theorem httpHead_append {lines : List (List Char)} {body : List Char} {n : Nat}
    (h : ∀ line ∈ lines, line ≠ [] ∧ '\r' ∉ line) (hn : lines.length < n) :
    httpHead n ((lines.flatMap fun line => line ++ ['\r', '\n']) ++ '\r' :: '\n' :: body) = some (lines, body) := by
  induction lines generalizing n with
  | nil =>
    obtain ⟨n, rfl⟩ := Nat.exists_eq_succ_of_ne_zero (Nat.ne_of_gt hn)
    rfl
  | cons line lines ih =>
    obtain ⟨n, rfl⟩ := Nat.exists_eq_succ_of_ne_zero (Nat.ne_zero_of_lt hn)
    obtain ⟨hne, hcr⟩ := h line List.mem_cons_self
    have hrest := ih (fun l hl => h l (List.mem_cons_of_mem _ hl)) (Nat.lt_of_succ_lt_succ hn)
    have htext : ((line :: lines).flatMap fun line => line ++ ['\r', '\n']) ++ '\r' :: '\n' :: body =
        line ++ '\r' :: '\n' :: ((lines.flatMap fun line => line ++ ['\r', '\n']) ++ '\r' :: '\n' :: body) := by simp
    rw [htext, httpHead, httpLine_append hcr, Option.bind_some, if_neg hne, hrest]
    rfl

theorem cr_not_mem_repr (n : Nat) : '\r' ∉ (toString n).toList := by
  intro hmem
  rw [Nat.toString_eq_repr, Nat.repr, String.toList_ofList] at hmem
  have hdigit := Nat.isDigit_of_mem_toDigits (by decide) (by decide) hmem
  cases hdigit

theorem toList_crlf : crlf.toList = ['\r', '\n'] := by decide

/-- The letters of a text that is put together of lines. -/
theorem toList_lines {auth : String} {lines : List String}
    (hauth : auth.toList = (lines.map String.toList).flatMap fun line => line ++ ['\r', '\n'])
    (post host type length close : String) (body : List Char) :
    ((post ++ crlf) ++ (host ++ crlf) ++ auth ++ (type ++ crlf) ++ (length ++ crlf) ++ (close ++ crlf) ++ crlf ++
        String.ofList body).toList =
      ((([post, host] ++ (lines ++ [type, length, close])).map String.toList).flatMap
        fun line => line ++ ['\r', '\n']) ++ '\r' :: '\n' :: body := by
  simp [toList_crlf, hauth]

theorem toList_authHeader (target : NotifyTarget) :
    target.authHeader.toList =
      ((target.token.map fun token => "Authorization: Bearer " ++ token).toList.map String.toList).flatMap
        fun line => line ++ ['\r', '\n'] := by
  unfold NotifyTarget.authHeader
  cases target.token with
  | none => rfl
  | some token =>
    rw [String.toList_append, toList_crlf]
    simp

theorem notifyRequest_text (target : NotifyTarget) (body : List Char) :
    (notifyRequest target body).text.toList =
      (((target.headLines (String.ofList body).utf8ByteSize).map String.toList).flatMap fun line => line ++ ['\r', '\n']) ++
        '\r' :: '\n' :: body :=
  toList_lines (toList_authHeader target) ..

theorem line_append {a b : String} (ha : a.toList ≠ [] ∧ '\r' ∉ a.toList) (hb : '\r' ∉ b.toList) :
    (a ++ b).toList ≠ [] ∧ '\r' ∉ (a ++ b).toList := by
  rw [String.toList_append]
  exact ⟨fun hnil => ha.1 (List.append_eq_nil_iff.mp hnil).1, fun hmem => (List.mem_append.mp hmem).elim ha.2 hb⟩

/-- **What is sent is read back**: the head of a request to a host and with a token that do not break a line, and the
body, which has the length that the head says. -/
theorem httpHead_text (target : NotifyTarget) (body : List Char) (hhost : '\r' ∉ target.host.toList)
    (htoken : ∀ token ∈ target.token, '\r' ∉ token.toList) :
    httpHead 7 (notifyRequest target body).text.toList =
      some ((target.headLines (String.ofList body).utf8ByteSize).map String.toList, body) := by
  rw [notifyRequest_text]
  refine httpHead_append (fun line hline => ?_) ?_
  · obtain ⟨text, htext, rfl⟩ := List.mem_map.mp hline
    have hport : '\r' ∉ target.authority.toList := by
      rw [NotifyTarget.authority, String.toList_append, String.toList_append, List.mem_append, List.mem_append]
      rintro ((hmem | hmem) | hmem)
      · exact hhost hmem
      · exact absurd hmem (by decide)
      · exact cr_not_mem_repr _ hmem
    rw [NotifyTarget.headLines, List.mem_append, List.mem_append, Option.mem_toList, Option.map_eq_some_iff,
      List.mem_pair, List.mem_cons, List.mem_pair] at htext
    rcases htext with (rfl | rfl) | ⟨token, htok, rfl⟩ | rfl | rfl | rfl
    · decide
    · exact line_append (by decide) hport
    · exact line_append (by decide) (htoken token htok)
    · decide
    · exact line_append (by decide) (cr_not_mem_repr _)
    · decide
  · rw [List.length_map, NotifyTarget.headLines]
    cases target.token <;> simp

/-- The daemon reads a well-formed request from its text. -/
theorem NotifyRequest.WellFormed.read {target : NotifyTarget} {body : List Char} {path : Bytes}
    {session : Option String} (h : (notifyRequest target body).WellFormed path session) (hhost : '\r' ∉ target.host.toList)
    (htoken : ∀ token ∈ target.token, '\r' ∉ token.toList) :
    ∃ lines hex, httpHead 7 (notifyRequest target body).text.toList = some (lines, body) ∧
      ("Content-Length: " ++ toString (String.ofList body).utf8ByteSize).toList ∈ lines ∧
      Json.parse body = some (notification hex session) ∧ Notify.hexDecode hex = some path := by
  obtain ⟨hex, hparse, hpath⟩ := h.json
  refine ⟨_, hex, httpHead_text target body hhost htoken, List.mem_map_of_mem ?_, ?_, hpath⟩
  · rw [NotifyTarget.headLines]
    exact List.mem_append_right _ (List.mem_append_right _ (List.mem_cons_of_mem _ List.mem_cons_self))
  · rwa [notifyRequest, String.toList_ofList] at hparse

/-- **Both notifications say what they should** exactly when the session has no control character but `\n`,
`\r` and `\t`; the FUSE mount's always does. -/
theorem notify_well_formed (bytes : Bytes) (path : VfsPath) (target : NotifyTarget) (session : Option String) :
    ((Shim.buildNotifyRequest bytes target session).WellFormed bytes session ∧
        (Fuse.buildNotifyRequest path target session).WellFormed path.bytes session) ↔
      ∀ s ∈ session, ∀ c ∈ s.toList, ¬ RawControl c := by
  constructor
  · rintro ⟨hshim, -⟩ s hs c hc hraw
    cases hs
    exact not_wellFormed_of_raw target bytes ⟨c, hc, hraw⟩ hshim
  · intro h
    refine ⟨wellFormed_of_spells target bytes fun s hs c hc => spells_shim (h s hs c hc), ?_⟩
    exact fuse_notify_wellFormed path target session

/-- The shim's request for the session `\x01` has no JSON body. -/
theorem not_notify_well_formed :
    ¬ (Shim.buildNotifyRequest [97] ⟨"127.0.0.1", 4219, none⟩ (some "\x01")).WellFormed [97] (some "\x01") := by
  rintro ⟨-, hex, hparse, -⟩
  have hnone : Json.parse (Shim.buildNotifyRequest [97] ⟨"127.0.0.1", 4219, none⟩ (some "\x01")).body.toList = none := by
    decide +kernel
  rw [hnone] at hparse
  cases hparse

end KinVfs
