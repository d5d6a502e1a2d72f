import Mathlib.Data.Bool.AllAny
import KinVfs.Core.Path
import KinVfs.Daemon.Endpoint
import KinVfs.Lib.FirstFree
import KinVfs.Lib.Fold
import KinVfs.Lib.Runs

/-!
# The workspace registry (`crates/kin-vfs-nfs/src/registry.rs`)

A workspace is registered under the last component of its path, with a number behind it when that name is
taken, and with the URL of its daemon. Where the URL is left to the registry, it takes the first port from
4219 on that no registered URL has, by what stands after the last colon.

* The names stay distinct single components (`Registry.Named`).
* The port that is chosen is another one than the port of every http URL on `127.0.0.1`, as long as these end
  with their port; of `http://127.0.0.1:4219/` the slash hides it. Who reads the URLs is a parameter (`ReadsPorts`).
-/

namespace KinVfs

/-! ## Paths (`std::path::Path`) -/

inductive PathComponent where
  | rootDir
  | curDir
  | parentDir
  | normal (name : Bytes)
  deriving DecidableEq

/-- `Path::components`: empty parts and dots are dropped, but for a dot in front. -/
def pathComponents (path : Bytes) : List PathComponent :=
  let parts := path.splitOn slash
  (if path.head? = some slash then [.rootDir] else if parts.head? = some [46] then [.curDir] else []) ++
    parts.filterMap fun part =>
      if part = [] ∨ part = [46] then none
      else if part = [46, 46] then some .parentDir
      else some (.normal part)

/-- `Path::file_name`. -/
def pathFileName (path : Bytes) : Option Bytes :=
  match (pathComponents path).getLast? with
  | some (.normal name) => some name
  | _ => none

/-- `Path::join`. -/
def pathJoin (path rest : Bytes) : Bytes :=
  if rest.head? = some slash then rest
  else if path = [] ∨ path.getLast? = some slash then path ++ rest
  else path ++ slash :: rest

/-! ## The registry -/

structure WorkspaceEntry where
  name : String
  path : Bytes
  daemonUrl : String
  deriving DecidableEq

/-- A port that the registry chose, and what was registered then. -/
structure PortChoice where
  port : Nat
  before : List WorkspaceEntry
  deriving DecidableEq

/-- `chosen` is history. -/
structure Registry where
  entries : List WorkspaceEntry
  chosen : List PortChoice
  deriving DecidableEq

/-- What stands after the last colon, or the whole text (`rsplit(':').next()`). -/
def afterLastColon (text : List Char) : List Char :=
  ((Text.splitLast [':'] text).map (·.2)).getD text

namespace Registry

/-- `WorkspaceRegistry::load` of no file. -/
def empty : Registry := ⟨[], []⟩

def names (reg : Registry) : List String := reg.entries.map (·.name)

/-- The name without a number. -/
def baseName (path : Bytes) : String := ((pathFileName path).map Text.fromUtf8Lossy).getD "workspace"

/-- The names that are tried: the `suffix` is a `u32`, far from its end. -/
def candidate (base : String) (suffix : Nat) : String := base ++ "-" ++ toString suffix

/-- The loop ends, since more names are tried than there are entries (`displayName_isSome`). -/
def displayName (reg : Registry) (base : String) : Option String :=
  if !reg.names.contains base then some base
  else
    (FirstFree.find (fun suffix => !reg.names.contains (candidate base suffix))
      (reg.entries.length + 1) 2).map (candidate base)

def register (reg : Registry) (path : Bytes) (daemonUrl : String) : Option Registry :=
  (reg.displayName (baseName path)).map fun name =>
    { reg with entries := reg.entries ++ [⟨name, path, daemonUrl⟩] }

def deregister (reg : Registry) (name : String) : Registry :=
  { reg with entries := reg.entries.filter (·.name ≠ name) }

def isRegisteredPath (reg : Registry) (path : Bytes) : Bool :=
  reg.entries.any fun e => pathComponents e.path == pathComponents path

/-- The ports that the registered URLs end with. -/
def usedPorts (reg : Registry) : List Nat :=
  reg.entries.filterMap fun e => parseU16 (String.ofList (afterLastColon e.daemonUrl.toList))

/-- `next_free_port`. -/
def nextFreePort (reg : Registry) : Nat :=
  (FirstFree.find (fun port => !reg.usedPorts.contains port) (2 ^ 16 - 4219) 4219).getD 4219

def nextFreeDaemonUrl (reg : Registry) : String := "http://127.0.0.1:" ++ toString reg.nextFreePort

/-- The choice, for the history. -/
def noteChoice (reg : Registry) : Registry :=
  { reg with chosen := reg.chosen ++ [⟨reg.nextFreePort, reg.entries⟩] }

/-- Register a path on a port that the registry chooses. -/
def registerNext (reg : Registry) (path : Bytes) : Option Registry :=
  reg.noteChoice.register path reg.nextFreeDaemonUrl

/-- What `discover` finds under the home directory. -/
structure Scan where
  home : Option Bytes
  /-- The entries of a directory, each with whether it has a `.kin` directory; `none` when it is no
  directory or cannot be read. -/
  readDir : Bytes → Option (List (Bytes × Bool))
  /-- What `save` says. -/
  saved : Except String Unit

/-- The directories that are searched, from the home directory. -/
def searchDirs (home : Bytes) : List Bytes :=
  ["GitHub", "Projects", "Developer", "repos", "src", "code", "work"].map
    (fun name => pathJoin home name.toUTF8.toList) ++ [home]

/-- One entry of a directory, with the names that were found before. -/
def visit (dir : Bytes) (found : List String × Registry) (entry : Bytes × Bool) :
    Option (List String × Registry) :=
  let path := pathJoin dir entry.1
  if entry.2 && !found.2.isRegisteredPath path then
    (found.2.registerNext path).map fun reg => (found.1 ++ (reg.entries.getLast?.map (·.name)).toList, reg)
  else some found

def visitDir (scan : Scan) (found : List String × Registry) (dir : Bytes) : Option (List String × Registry) :=
  ((scan.readDir dir).getD []).foldlM (visit dir) found

def discover (reg : Registry) (scan : Scan) : Option (Except String (List String) × Registry) :=
  match scan.home with
  | none => some (.error "HOME not set", reg)
  | some home =>
    ((searchDirs home).foldlM (visitDir scan) ([], reg)).map fun (names, reg) =>
      if names = [] then (.ok names, reg)
      else
        match scan.saved with
        | .error e => (.error e, reg)
        | .ok () => (.ok names, reg)

end Registry

inductive RegistryLabel where
  | register (path : Bytes) (daemonUrl : String)
  /-- A repository that is named with `--repo` and advertises nothing. -/
  | registerNext (path : Bytes)
  | deregister (name : String)
  | discover (scan : Registry.Scan)

def Registry.step (reg : Registry) : RegistryLabel → Option Registry
  | .register path daemonUrl => reg.register path daemonUrl
  | .registerNext path => reg.registerNext path
  | .deregister name => some (reg.deregister name)
  | .discover scan => (reg.discover scan).map (·.2)

/-! ## Names -/

section Names

variable {path name : Bytes} {base : String} {reg reg' : Registry}

/-- A name that a directory can have. -/
structure SingleComponent (name : String) : Prop where
  nonempty : name ≠ ""
  slash : '/' ∉ name.toList
  dot : name ≠ "."
  dots : name ≠ ".."

theorem pathFileName_spec (h : pathFileName path = some name) :
    slash ∉ name ∧ name ≠ [] ∧ name ≠ [46] ∧ name ≠ [46, 46] := by
  unfold pathFileName at h
  split at h
  · rename_i hlast
    cases h
    have hmem := List.mem_of_getLast? hlast
    rw [pathComponents, List.mem_append] at hmem
    rcases hmem with hmem | hmem
    · split at hmem
      · simp at hmem
      · split at hmem <;> simp at hmem
    · obtain ⟨part, hpart, hname⟩ := List.mem_filterMap.mp hmem
      split at hname
      · cases hname
      · rename_i hplain
        split at hname
        · cases hname
        · rename_i hdots
          cases hname
          rw [not_or] at hplain
          exact ⟨slash_not_mem_splitOn hpart, hplain.1, hplain.2, hdots⟩
  · cases h

theorem baseName_single (path : Bytes) : SingleComponent (Registry.baseName path) := by
  unfold Registry.baseName
  cases hname : pathFileName path with
  | none => exact ⟨by decide, by decide, by decide, by decide⟩
  | some name =>
    obtain ⟨hslash, hnil, hdot, hdots⟩ := pathFileName_spec hname
    rw [Option.map_some, Option.getD_some]
    -- A text without the replacement character has the bytes of the name.
    have hbytes : ∀ text : String, '\ufffd' ∉ text.toList → Text.fromUtf8Lossy name = text →
        text.toList.flatMap String.utf8EncodeChar = name := by
      rintro text hno rfl
      rw [← Text.toUTF8_toList]
      exact Text.toUTF8_fromUtf8Lossy hno
    refine ⟨fun h => hnil ?_, fun h => ?_, fun h => hdot ?_, fun h => hdots ?_⟩
    · rw [← hbytes "" (by decide) h]
      rfl
    · rcases Text.mem_fromUtf8Lossy h with h | h
      · exact absurd h (by decide)
      · exact hslash (h slash (by decide))
    · rw [← hbytes "." (by decide) h]
      rfl
    · rw [← hbytes ".." (by decide) h]
      rfl

theorem candidate_single (h : SingleComponent base) (suffix : Nat) :
    SingleComponent (Registry.candidate base suffix) := by
  have hdash : '-' ∈ (Registry.candidate base suffix).toList := by
    simp [Registry.candidate]
  refine ⟨?_, ?_, ?_, ?_⟩
  · rintro heq
    rw [heq] at hdash
    exact absurd hdash (by decide)
  · intro hmem
    simp only [Registry.candidate, String.toList_append, List.mem_append] at hmem
    rcases hmem with (hmem | hmem) | hmem
    · exact h.slash hmem
    · exact absurd hmem (by decide)
    · have hdigit : '/'.isDigit = true := by
        rw [show toString suffix = suffix.repr from rfl, Nat.repr, String.toList_ofList] at hmem
        exact Nat.isDigit_of_mem_toDigits (by decide) (by decide) hmem
      exact absurd hdigit (by decide)
  · rintro heq
    rw [heq] at hdash
    exact absurd hdash (by decide)
  · rintro heq
    rw [heq] at hdash
    exact absurd hdash (by decide)

theorem candidate_injective (base : String) : Function.Injective (Registry.candidate base) := by
  intro m n h
  have hlist := congrArg String.toList h
  simp only [Registry.candidate, String.toList_append, List.append_assoc, List.append_cancel_left_eq] at hlist
  have hdigits : Nat.toDigits 10 m = Nat.toDigits 10 n := by
    rw [show toString m = m.repr from rfl, show toString n = n.repr from rfl, Nat.repr, Nat.repr,
      String.toList_ofList, String.toList_ofList] at hlist
    exact hlist
  have hvalue := congrArg (fun ds => Nat.ofDigitChars 10 ds 0) hdigits
  simpa using hvalue

/-- A name is found, and it is new. -/
theorem displayName_spec (reg : Registry) (h : SingleComponent base) :
    ∃ name, reg.displayName base = some name ∧ name ∉ reg.names ∧ SingleComponent name := by
  unfold Registry.displayName
  split
  · rename_i hfree
    exact ⟨base, rfl, by simpa using hfree, h⟩
  · have hlength : reg.names.length < reg.entries.length + 1 := by
      simp [Registry.names]
    obtain ⟨suffix, hfind, -, -, hfree⟩ := FirstFree.find_of_length_lt (candidate_injective base) hlength 2
    exact ⟨Registry.candidate base suffix, by rw [hfind]; rfl, hfree, candidate_single h suffix⟩

/-- The names are distinct single components. -/
structure Registry.Named (reg : Registry) : Prop where
  nodup : reg.names.Nodup
  single : ∀ name ∈ reg.names, SingleComponent name

/-- What `register` does. -/
theorem register_eq_some {url : String} (h : reg.register path url = some reg') :
    ∃ name, name ∉ reg.names ∧ SingleComponent name ∧
      reg' = { reg with entries := reg.entries ++ [⟨name, path, url⟩] } := by
  obtain ⟨name, hname, hnew, hsingle⟩ := displayName_spec reg (baseName_single path)
  rw [Registry.register, hname] at h
  cases h
  exact ⟨name, hnew, hsingle, rfl⟩

theorem Registry.Named.register (h : reg.Named) {url : String} (hreg : reg.register path url = some reg') :
    reg'.Named := by
  obtain ⟨name, hnew, hsingle, rfl⟩ := register_eq_some hreg
  have hnames : ({ reg with entries := reg.entries ++ [⟨name, path, url⟩] } : Registry).names =
      reg.names ++ [name] := by
    simp [Registry.names]
  constructor
  · rw [hnames, List.nodup_append_comm]
    exact List.nodup_cons.mpr ⟨hnew, h.nodup⟩
  · intro x hx
    rw [hnames, List.mem_append] at hx
    rcases hx with hx | hx
    · exact h.single x hx
    · rw [List.mem_singleton.mp hx]
      exact hsingle

theorem Registry.Named.deregister (h : reg.Named) (name : String) : (reg.deregister name).Named := by
  have hsub : (reg.deregister name).names.Sublist reg.names := List.filter_sublist.map _
  exact ⟨h.nodup.sublist hsub, fun x hx => h.single x (hsub.subset hx)⟩

end Names

/-! ## Ports -/

section Ports

/-- A decimal number of 16 bits. -/
def readPort (digits : List Char) : Option Nat :=
  if digits ≠ [] ∧ digits.all Char.isDigit then
    let n := Nat.ofDigitChars 10 digits 0
    if n < 2 ^ 16 then some n else none
  else none

/-- The port of an http URL on `127.0.0.1`: the authority ends before the path, the query or the fragment,
the host stands after the user, and without a port it is 80. -/
def loopbackPort (url : String) : Option Nat :=
  if (url.toList.take 7).map Char.toLower = "http://".toList then
    let authority := (url.toList.drop 7).takeWhile fun c => c != '/' && c != '?' && c != '#'
    let host := ((Text.splitLast ['@'] authority).map (·.2)).getD authority
    match Text.cut ':' host with
    | (name, none) => if name = "127.0.0.1".toList then some 80 else none
    | (name, some digits) =>
      if name = "127.0.0.1".toList then if digits = [] then some 80 else readPort digits else none
  else none

/-- The characters of a URI (RFC 3986). -/
def uriChar (c : Char) : Bool := c.isAlphanum || "-._~:/?#[]@!$&'()*+,;=%".toList.contains c

/-- A reader of URLs, of the ports of those on `127.0.0.1`. It may know more spellings of the host than
`loopbackPort` and take more characters, such as a backslash for a slash. -/
structure ReadsPorts (readUrl : String → Option Nat) : Prop where
  uri : ∀ url port, url.toList.all uriChar = true → loopbackPort url = some port → readUrl url = some port

theorem readsPorts_loopbackPort : ReadsPorts loopbackPort := ⟨fun _ _ _ h => h⟩

variable {readUrl : String → Option Nat}

/-- A URL on `127.0.0.1` with a port that the registry could choose ends with it. -/
def EndsWithPort (readUrl : String → Option Nat) (url : String) : Prop :=
  ∀ port, readUrl url = some port → 4219 ≤ port →
    ∃ before digits, url.toList = before ++ ':' :: digits ∧ readPort digits = some port

variable {url : String} {digits before : List Char} {port : Nat} {reg reg' : Registry} {path : Bytes}

theorem readPort_eq_some (h : readPort digits = some port) :
    (∃ c rest, digits = c :: rest) ∧ (∀ c ∈ digits, c.isDigit = true) ∧ Nat.ofDigitChars 10 digits 0 = port ∧
      port < 2 ^ 16 := by
  unfold readPort at h
  split at h
  · rename_i hdigits
    obtain ⟨hnil, hall⟩ := hdigits
    dsimp only at h
    split at h
    · rename_i hlt
      cases h
      exact ⟨List.exists_cons_of_ne_nil hnil, List.all_eq_true.mp hall, rfl, hlt⟩
    · cases h
  · cases h

theorem parseU16_of_readPort (h : readPort digits = some port) : parseU16 (String.ofList digits) = some port := by
  obtain ⟨⟨c, rest, rfl⟩, hall, hvalue, hlt⟩ := readPort_eq_some h
  have hplus : c ≠ '+' := by
    rintro rfl
    exact absurd (hall '+' List.mem_cons_self) (by decide)
  unfold parseU16
  rw [String.toList_ofList]
  split
  · rename_i heq
    cases heq
    exact absurd rfl hplus
  · have hfold : (c :: rest).foldl (fun n c => 10 * n + (c.toNat - '0'.toNat)) 0 = port := hvalue
    rw [if_pos ⟨List.cons_ne_nil c rest, List.all_eq_true.mpr hall⟩]
    simp only [hfold, if_pos hlt]

/-- The registry sees the port that a URL ends with. -/
theorem mem_usedPorts {e : WorkspaceEntry} (he : e ∈ reg.entries) (hurl : e.daemonUrl.toList = before ++ ':' :: digits)
    (hport : readPort digits = some port) : port ∈ reg.usedPorts := by
  have hcolon : ':' ∉ digits := by
    intro hmem
    exact absurd ((readPort_eq_some hport).2.1 ':' hmem) (by decide)
  have hsplit : Text.splitLast [':'] (before ++ [':'] ++ digits) = some (before, digits) :=
    Text.splitLast_append (by simpa using hcolon)
  refine List.mem_filterMap.mpr ⟨e, he, ?_⟩
  rw [hurl, afterLastColon, show before ++ ':' :: digits = before ++ [':'] ++ digits by simp, hsplit]
  exact parseU16_of_readPort hport

theorem nextFreePort_le (reg : Registry) : 4219 ≤ reg.nextFreePort := by
  unfold Registry.nextFreePort
  cases hfind : FirstFree.find (fun port => !reg.usedPorts.contains port) (2 ^ 16 - 4219) 4219 with
  | none => exact Nat.le_refl 4219
  | some port => exact (FirstFree.find_spec hfind).1

/-- There are more ports than entries. -/
theorem nextFreePort_not_mem (h : reg.entries.length < 60000) : reg.nextFreePort ∉ reg.usedPorts := by
  have hlength : reg.usedPorts.length < 2 ^ 16 - 4219 := by
    have := List.length_filterMap_le (fun e : WorkspaceEntry =>
      parseU16 (String.ofList (afterLastColon e.daemonUrl.toList))) reg.entries
    unfold Registry.usedPorts
    omega
  obtain ⟨port, hfind, -, -, hfree⟩ :=
    FirstFree.find_of_length_lt (f := fun port : Nat => port) (fun _ _ h => h) hlength 4219
  rw [Registry.nextFreePort, hfind]
  exact hfree

/-- What the registry promises of the ports it has chosen. -/
def Registry.Apart (readUrl : String → Option Nat) (reg : Registry) : Prop :=
  ∀ choice ∈ reg.chosen, choice.before.length < 60000 →
    ∀ e ∈ choice.before, readUrl e.daemonUrl ≠ some choice.port

/-- The registered URLs end with their ports, and the chosen ports were free. -/
structure Registry.Told (readUrl : String → Option Nat) (reg : Registry) : Prop where
  urls : ∀ e ∈ reg.entries, EndsWithPort readUrl e.daemonUrl
  apart : reg.Apart readUrl

theorem Registry.Told.nextFreePort_ne (h : reg.Told readUrl) (hlength : reg.entries.length < 60000) :
    ∀ e ∈ reg.entries, readUrl e.daemonUrl ≠ some reg.nextFreePort := by
  intro e he hport
  obtain ⟨before, digits, hurl, hread⟩ := h.urls e he reg.nextFreePort hport (nextFreePort_le reg)
  exact nextFreePort_not_mem hlength (mem_usedPorts he hurl hread)

theorem Registry.Told.register (h : reg.Told readUrl) (hurl : EndsWithPort readUrl url)
    (hreg : reg.register path url = some reg') : reg'.Told readUrl := by
  obtain ⟨name, -, -, rfl⟩ := register_eq_some hreg
  refine ⟨fun e he => ?_, h.apart⟩
  rcases List.mem_append.mp he with he | he
  · exact h.urls e he
  · rw [List.mem_singleton.mp he]
    exact hurl

theorem Registry.Told.deregister (h : reg.Told readUrl) (name : String) : (reg.deregister name).Told readUrl :=
  ⟨fun e he => h.urls e (List.mem_filter.mp he).1, h.apart⟩

theorem nextFreePort_lt (reg : Registry) : reg.nextFreePort < 2 ^ 16 := by
  unfold Registry.nextFreePort
  cases hfind : FirstFree.find (fun port => !reg.usedPorts.contains port) (2 ^ 16 - 4219) 4219 with
  | none => decide
  | some port =>
    have hlt := (FirstFree.find_spec hfind).2.1
    rw [Option.getD_some]
    omega

theorem readPort_toDigits (h : port < 2 ^ 16) : readPort (Nat.toDigits 10 port) = some port := by
  have hne : Nat.toDigits 10 port ≠ [] := Nat.toDigits_ne_nil
  have hall : (Nat.toDigits 10 port).all Char.isDigit = true :=
    List.all_eq_true.mpr fun c hc => Nat.isDigit_of_mem_toDigits (by decide) (by decide) hc
  unfold readPort
  rw [if_pos ⟨hne, hall⟩]
  simp only [Nat.ofDigitChars_ten_toDigits, if_pos h]

/-- The text of the URL that the registry makes. -/
theorem nextFreeDaemonUrl_toList (reg : Registry) : reg.nextFreeDaemonUrl.toList =
    "http://".toList ++ ("127.0.0.1".toList ++ ':' :: Nat.toDigits 10 reg.nextFreePort) := by
  have hurl : reg.nextFreeDaemonUrl =
      "http://127.0.0.1:" ++ String.ofList (Nat.toDigits 10 reg.nextFreePort) := rfl
  have hscheme : "http://127.0.0.1:".toList = "http://".toList ++ ("127.0.0.1".toList ++ [':']) := by decide
  have hdigits : (String.ofList (Nat.toDigits 10 reg.nextFreePort)).toList = Nat.toDigits 10 reg.nextFreePort :=
    String.toList_ofList
  rw [hurl, String.toList_append, hscheme, hdigits]
  simp only [List.append_assoc, List.singleton_append]

/-- What the registry writes behind the scheme is the whole authority, with no user. -/
theorem authority_nextFreeDaemonUrl {n : Nat} {c : Char} (h : c ∈ "127.0.0.1".toList ++ ':' :: Nat.toDigits 10 n) :
    (c != '/' && c != '?' && c != '#') = true ∧ c ≠ '@' ∧ uriChar c = true := by
  have hclear : ∀ c : Char, c.isDigit = true ∨ c = '.' ∨ c = ':' →
      (c != '/' && c != '?' && c != '#') = true ∧ c ≠ '@' ∧ uriChar c = true := by
    rintro c (hdigit | rfl | rfl)
    · have halnum : uriChar c = true := by simp [uriChar, Char.isAlphanum, hdigit]
      simp only [Bool.and_eq_true, bne_iff_ne]
      refine ⟨⟨⟨?_, ?_⟩, ?_⟩, ?_, halnum⟩ <;> rintro rfl <;> exact absurd hdigit (by decide)
    · decide
    · decide
  apply hclear
  rcases List.mem_append.mp h with h | h
  · have hall : ("127.0.0.1".toList.all fun c => c.isDigit || c == '.') = true := by decide
    have hc := List.all_eq_true.mp hall c h
    simp only [Bool.or_eq_true, beq_iff_eq] at hc
    exact hc.imp_right .inl
  · rcases List.mem_cons.mp h with rfl | h
    · exact .inr (.inr rfl)
    · exact .inl (Nat.isDigit_of_mem_toDigits (by decide) (by decide) h)

theorem loopbackPort_nextFreeDaemonUrl (reg : Registry) :
    loopbackPort reg.nextFreeDaemonUrl = some reg.nextFreePort := by
  have htake : reg.nextFreeDaemonUrl.toList.take 7 = "http://".toList := by
    rw [nextFreeDaemonUrl_toList]
    exact List.take_left' (by decide)
  have hdrop : reg.nextFreeDaemonUrl.toList.drop 7 =
      "127.0.0.1".toList ++ ':' :: Nat.toDigits 10 reg.nextFreePort := by
    rw [nextFreeDaemonUrl_toList]
    exact List.drop_left' (by decide)
  have hwhole : ("127.0.0.1".toList ++ ':' :: Nat.toDigits 10 reg.nextFreePort).takeWhile
      (fun c => c != '/' && c != '?' && c != '#') =
        "127.0.0.1".toList ++ ':' :: Nat.toDigits 10 reg.nextFreePort :=
    List.takeWhile_eq_self_iff.mpr fun c hc => (authority_nextFreeDaemonUrl hc).1
  have huser : Text.splitLast ['@'] ("127.0.0.1".toList ++ ':' :: Nat.toDigits 10 reg.nextFreePort) = none := by
    cases hsplit : Text.splitLast ['@'] ("127.0.0.1".toList ++ ':' :: Nat.toDigits 10 reg.nextFreePort) with
    | none => rfl
    | some parts =>
      have heq := Text.eq_append_of_splitLast hsplit
      exact absurd rfl (authority_nextFreeDaemonUrl (c := '@') (by rw [heq]; simp)).2.1
  have hcut : Text.cut ':' ("127.0.0.1".toList ++ ':' :: Nat.toDigits 10 reg.nextFreePort) =
      ("127.0.0.1".toList, some (Nat.toDigits 10 reg.nextFreePort)) := Text.cut_append (by decide)
  unfold loopbackPort
  rw [htake, if_pos (by decide), hdrop]
  dsimp only
  rw [hwhole, huser]
  dsimp only [Option.map_none, Option.getD_none]
  rw [hcut]
  dsimp only
  rw [if_pos rfl, if_neg Nat.toDigits_ne_nil]
  exact readPort_toDigits (nextFreePort_lt reg)

/-- The URL that the registry makes ends with its port, whoever reads it. -/
theorem endsWithPort_nextFreeDaemonUrl (hread : ReadsPorts readUrl) (reg : Registry) :
    EndsWithPort readUrl reg.nextFreeDaemonUrl := by
  intro port hport _
  have huri : reg.nextFreeDaemonUrl.toList.all uriChar = true := by
    rw [nextFreeDaemonUrl_toList, List.all_append, Bool.and_eq_true]
    exact ⟨by decide, List.all_eq_true.mpr fun c hc => (authority_nextFreeDaemonUrl hc).2.2⟩
  rw [hread.uri _ _ huri (loopbackPort_nextFreeDaemonUrl reg)] at hport
  cases hport
  refine ⟨"http://".toList ++ "127.0.0.1".toList, _, ?_, readPort_toDigits (nextFreePort_lt reg)⟩
  rw [nextFreeDaemonUrl_toList, List.append_assoc]

theorem Registry.Told.registerNext (hread : ReadsPorts readUrl) (h : reg.Told readUrl)
    (hreg : reg.registerNext path = some reg') : reg'.Told readUrl := by
  have hnoted : reg.noteChoice.Told readUrl := by
    refine ⟨h.urls, fun choice hchoice hlength => ?_⟩
    rcases List.mem_append.mp hchoice with hchoice | hchoice
    · exact h.apart choice hchoice hlength
    · cases List.mem_singleton.mp hchoice
      exact h.nextFreePort_ne hlength
  exact hnoted.register (endsWithPort_nextFreeDaemonUrl hread reg) hreg

end Ports

/-! ## Runs -/

section Run

variable {reg : Registry} {C : String → Prop} {P : Registry → Prop}

/-- What a registration keeps, when its URL has `C` or the registry chooses it. -/
structure Registry.Keeps (C : String → Prop) (P : Registry → Prop) : Prop where
  register : ∀ reg path url, P reg → C url → ∃ reg', reg.register path url = some reg' ∧ P reg'
  registerNext : ∀ reg path, P reg → ∃ reg', reg.registerNext path = some reg' ∧ P reg'
  deregister : ∀ reg name, P reg → P (reg.deregister name)

theorem register_isSome (reg : Registry) (path : Bytes) (url : String) :
    ∃ reg', reg.register path url = some reg' := by
  obtain ⟨name, hname, -, -⟩ := displayName_spec reg (baseName_single path)
  rw [Registry.register, hname]
  exact ⟨_, rfl⟩

theorem Registry.Keeps.discover (h : Registry.Keeps C P) (hreg : P reg) (scan : Registry.Scan) :
    ∃ r, reg.discover scan = some r ∧ P r.2 := by
  have hvisit : ∀ dir (found : List String × Registry) entry, P found.2 →
      ∃ found', Registry.visit dir found entry = some found' ∧ P found'.2 := by
    intro dir found entry hfound
    unfold Registry.visit
    dsimp only
    split
    · obtain ⟨reg', hnext, hreg'⟩ := h.registerNext found.2 (pathJoin dir entry.1) hfound
      rw [hnext]
      exact ⟨_, rfl, hreg'⟩
    · exact ⟨found, rfl, hfound⟩
  have hdir : ∀ (found : List String × Registry) dir, P found.2 →
      ∃ found', Registry.visitDir scan found dir = some found' ∧ P found'.2 := by
    intro found dir hfound
    exact Fold.foldlM_total (P := fun found : List String × Registry => P found.2) (hvisit dir) hfound _
  unfold Registry.discover
  cases scan.home with
  | none => exact ⟨_, rfl, hreg⟩
  | some home =>
    obtain ⟨⟨names, reg'⟩, hfold, hreg'⟩ :=
      Fold.foldlM_total (P := fun found : List String × Registry => P found.2) hdir
        (b := ([], reg)) hreg (Registry.searchDirs home)
    dsimp only
    rw [hfold, Option.map_some]
    refine ⟨_, rfl, ?_⟩
    dsimp only
    split
    · exact hreg'
    · split <;> exact hreg'

/-- The URL of a registration has `C`. -/
def RegistryLabel.UrlMeets (C : String → Prop) : RegistryLabel → Prop
  | .register _ url => C url
  | _ => True

theorem Registry.Keeps.run (h : Registry.Keeps C P) (hempty : P .empty) {labels : List RegistryLabel}
    (hC : ∀ l ∈ labels, l.UrlMeets C) : ∃ reg, Runs.run Registry.step .empty labels = some reg ∧ P reg := by
  refine Runs.run_total (C := RegistryLabel.UrlMeets C) (fun reg l hreg hl => ?_) hempty hC
  cases l with
  | register path url => exact h.register reg path url hreg hl
  | registerNext path => exact h.registerNext reg path hreg
  | deregister name => exact ⟨_, rfl, h.deregister reg name hreg⟩
  | discover scan =>
    obtain ⟨r, hr, hP⟩ := h.discover hreg scan
    refine ⟨r.2, ?_, hP⟩
    rw [Registry.step, hr]
    rfl

theorem keeps_named : Registry.Keeps (fun _ => True) Registry.Named where
  register reg path url hreg _ := by
    obtain ⟨reg', h⟩ := register_isSome reg path url
    exact ⟨reg', h, hreg.register h⟩
  registerNext reg path hreg := by
    obtain ⟨reg', h⟩ := register_isSome reg.noteChoice path reg.nextFreeDaemonUrl
    have hnoted : reg.noteChoice.Named := ⟨hreg.nodup, hreg.single⟩
    exact ⟨reg', h, hnoted.register h⟩
  deregister reg name hreg := hreg.deregister name

theorem keeps_told {readUrl : String → Option Nat} (hread : ReadsPorts readUrl) :
    Registry.Keeps (EndsWithPort readUrl) (Registry.Told readUrl) where
  register reg path url hreg hurl := by
    obtain ⟨reg', h⟩ := register_isSome reg path url
    exact ⟨reg', h, hreg.register hurl h⟩
  registerNext reg path hreg := by
    obtain ⟨reg', h⟩ := register_isSome reg.noteChoice path reg.nextFreeDaemonUrl
    exact ⟨reg', h, hreg.registerNext hread h⟩
  deregister reg name hreg := hreg.deregister name

/-- **The registry keeps names and ports apart**, in every sequence of operations: the names are distinct
single components, and if the registered URLs on `127.0.0.1` end with their ports, every port that was
chosen among fewer than 60,000 entries was another one than theirs. `readUrl` is the reader of URLs that says
what their ports are. -/
theorem registry_apart (readUrl : String → Option Nat) (hread : ReadsPorts readUrl) (labels : List RegistryLabel) :
    ∃ reg, Runs.run Registry.step .empty labels = some reg ∧ reg.Named ∧
      ((∀ l ∈ labels, l.UrlMeets (EndsWithPort readUrl)) → reg.Apart readUrl) := by
  have htrue : ∀ l ∈ labels, l.UrlMeets fun _ => True := by
    intro l _
    cases l <;> trivial
  obtain ⟨reg, hrun, hnamed⟩ := keeps_named.run ⟨List.nodup_nil, nofun⟩ htrue
  refine ⟨reg, hrun, hnamed, fun hends => ?_⟩
  obtain ⟨reg', hrun', htold⟩ := (keeps_told hread).run ⟨nofun, nofun⟩ hends
  cases hrun.symm.trans hrun'
  exact htold.apart

/-- A workspace with its own URL, and one more; URLs are read as `loopbackPort` does. -/
theorem registry_apart_two : ∃ reg, Runs.run Registry.step .empty
      [.register "/w/a".toUTF8.toList "http://127.0.0.1:4219", .registerNext "/w/b".toUTF8.toList] = some reg ∧
    reg.Named ∧ reg.Apart loopbackPort := by
  obtain ⟨reg, hrun, hnamed, hapart⟩ := registry_apart loopbackPort readsPorts_loopbackPort
    [.register "/w/a".toUTF8.toList "http://127.0.0.1:4219", .registerNext "/w/b".toUTF8.toList]
  refine ⟨reg, hrun, hnamed, hapart fun l hl => ?_⟩
  rcases List.mem_cons.mp hl with rfl | hl
  · intro port hport _
    rw [show loopbackPort "http://127.0.0.1:4219" = some 4219 by decide +kernel] at hport
    cases hport
    exact ⟨"http://127.0.0.1".toList, "4219".toList, by decide, by decide⟩
  · rw [List.mem_singleton.mp hl]
    trivial

/-- The slash hides the port, and it is given to a second workspace. -/
theorem not_registry_apart :
    ∃ reg, Runs.run Registry.step .empty [.register "/w/a".toUTF8.toList "http://127.0.0.1:4219/",
        .registerNext "/w/b".toUTF8.toList] = some reg ∧
      reg.entries.map (·.daemonUrl) = ["http://127.0.0.1:4219/", "http://127.0.0.1:4219"] ∧
      ¬ reg.Apart loopbackPort := by
  have hrun : Runs.run Registry.step .empty [.register "/w/a".toUTF8.toList "http://127.0.0.1:4219/",
      .registerNext "/w/b".toUTF8.toList] =
        some ⟨[⟨"a", "/w/a".toUTF8.toList, "http://127.0.0.1:4219/"⟩,
            ⟨"b", "/w/b".toUTF8.toList, "http://127.0.0.1:4219"⟩],
          [⟨4219, [⟨"a", "/w/a".toUTF8.toList, "http://127.0.0.1:4219/"⟩]⟩]⟩ := by
    decide +kernel
  refine ⟨_, hrun, rfl, fun h => ?_⟩
  exact h _ List.mem_cons_self (by decide) _ List.mem_cons_self (by decide +kernel)

end Run

end KinVfs
