import KinVfs.Core.Protocol
import KinVfs.Lib.Frames
import KinVfs.Daemon.StatStamp
import KinVfs.Shim.Client

/-!
# Frames (`framing.rs` and `server.rs` of `crates/kin-vfs-daemon/src`, `crates/kin-vfs-shim/src/client.rs`)

A frame is a length of four bytes and a payload. `write_frame` takes any payload; `recv` refuses one of
more than `maxFrameBytes`. A write is kept below that by `MAX_PROJECTION_WRITE`, an answer by nothing:
it is accepted exactly when what the graph serves for the request has room in a frame
(`answer_accepted_iff`).
-/

namespace KinVfs

open MsgPack

/-! ## Answers -/

/-- `Display` of an error. The text of a host error is `ioText`. -/
def VfsError.message (ioText : Posix.ErrorKind → String) : VfsError → String
  | .notFound path => "not found: " ++ path
  | .isDirectory path => "is a directory: " ++ path
  | .notDirectory path => "not a directory: " ++ path
  | .permissionDenied path => "permission denied: " ++ path
  | .invalidInput path => "invalid operation for path: " ++ path
  | .escapesRoot path => "path resolves outside the workspace root: " ++ path
  | .unsupportedRepositoryBoundary path => "unsupported repository boundary (gitlink) at: " ++ path
  | .io kind => "I/O error: " ++ ioText kind
  | .provider reason => "provider error: " ++ reason

def VfsError.code : VfsError → ErrorCode
  | .notFound _ => .notFound
  | .isDirectory _ => .isDirectory
  | .notDirectory _ => .notDirectory
  | .permissionDenied _ | .escapesRoot _ => .permissionDenied
  | .invalidInput _ => .invalidInput
  | .unsupportedRepositoryBoundary _ => .unsupportedBoundary
  | .io _ => .ioError
  | .provider _ => .internal

section Answers

variable (ioText : Posix.ErrorKind → String) (g g' : ContentProvider)

def vfsErrorAt (e : VfsError) (generation : Nat) : VfsResponse :=
  .error e.code (e.message ioText) generation

/-- A failure that names no snapshot. -/
def vfsErrorToResponse (e : VfsError) : VfsResponse := vfsErrorAt ioText e 0

/-- `answer_request`. A publication may come between the two reads of a ranged read. -/
def answerRequest : VfsRequest → VfsResponse
  | .stat path =>
    match g.statAt path with
    | (generation, .ok stat) => .stat stat generation
    | (generation, .error e) => vfsErrorAt ioText e generation
  | .readDir path =>
    match g.readDir path with
    | .ok entries => .dirEntries entries
    | .error e => vfsErrorToResponse ioText e
  | .read path offset len =>
    match answerRead g g' path offset len with
    | .ok (data, totalSize) => .content data totalSize
    | .error e => vfsErrorToResponse ioText e
  | .readLink path =>
    match g.readLink path with
    | .ok target => .linkTarget target
    | .error e => vfsErrorToResponse ioText e
  | .access path _ =>
    match g.pathExists path with
    | .ok accessible => .accessible accessible
    | .error e => vfsErrorToResponse ioText e
  | .announce _ _ | .canaryBypass _ _ => .announced

end Answers

/-! ## Frames -/

section Frames

variable (toVec : VfsResponse → Option Bytes) (fromSlice : Bytes → Option VfsResponse)

/-- What `write_frame` puts on the stream. -/
def writeFrame (response : VfsResponse) : Option Bytes := (toVec response).map Frames.frame

/-- `recv`: the response at the head of the stream, and the rest of it. -/
def recv (stream : Bytes) : Option (VfsResponse × Bytes) := do
  let (payload, rest) ← Frames.cut id maxFrameBytes stream
  let response ← fromSlice payload
  return (response, rest)

/-- The response is framed as the client wants it. -/
def FrameAccepted (response : VfsResponse) : Prop :=
  ∃ payload wire, toVec response = some payload ∧ writeFrame toVec response = some wire ∧
    payload.length ≤ maxFrameBytes ∧ ofBigEndian (wire.take 4) = payload.length ∧
    recv fromSlice wire = some (response, [])

variable {toVec fromSlice} {response : VfsResponse}

/-- A codec that gives a response back loses it only to the bound. -/
theorem frameAccepted_iff {payload : Bytes} (hto : toVec response = some payload)
    (hfrom : fromSlice payload = some response) :
    FrameAccepted toVec fromSlice response ↔ payload.length ≤ maxFrameBytes := by
  constructor
  · rintro ⟨payload', wire, hto', -, hle, -⟩
    rw [hto] at hto'
    cases hto'
    exact hle
  · intro hle
    have hlt : payload.length < 2 ^ 32 := Nat.lt_of_le_of_lt hle (by decide)
    have hcut := Frames.cut_frame hlt hle (List.map_id (Frames.frame payload))
    have hlen := Frames.announced_frame hlt
    rw [Frames.drop_frame] at hcut
    refine ⟨payload, Frames.frame payload, hto, by rw [writeFrame, hto]; rfl, hle, ?_, ?_⟩
    · simpa [Frames.announced] using hlen
    · simp [recv, hcut, hfrom]

/-- The client refuses a frame over the bound. -/
theorem recv_over {payload wire : Bytes} (hto : toVec response = some payload)
    (hwire : writeFrame toVec response = some wire) (hover : maxFrameBytes < payload.length)
    (hlt : payload.length < 2 ^ 32) : recv fromSlice wire = none := by
  have hframe : Frames.frame payload = wire := by simpa [writeFrame, hto] using hwire
  have hlen := Frames.announced_frame hlt
  subst hframe
  simp [recv, Frames.cut, hlen, hover]

end Frames

/-! ## Room -/

/-- Bytes that travel as an array of integers. -/
def octetsSize (data : Bytes) : Nat :=
  arrayHeaderSize data.length + (data.length + data.countP (0x80 ≤ ·))

/-- A listing entry: its name, and the name of its kind. -/
def entrySize (e : DirEntry) : Nat :=
  1 + (binHeaderSize e.name.bytes.length + e.name.bytes.length) + strSize e.fileType.wireName

section Room

variable (ioText : Posix.ErrorKind → String) (g g' : ContentProvider)

/-- There is room for a failure's text. -/
def ErrorFits (e : VfsError) (generation : Nat) : Prop :=
  8 + strSize e.code.wireName + strSize (e.message ioText) + uintSize generation ≤ maxFrameBytes

/-- There is room for what is served, or for the text of the failure. -/
def ReplyFits {α : Type} (room : α → Prop) : VfsResult α → Prop
  | .ok a => room a
  | .error e => ErrorFits ioText e 0

def ContentFits (data : Bytes) (totalSize : Nat) : Prop :=
  10 + octetsSize data + uintSize totalSize ≤ maxFrameBytes

/-- What the graph serves for a request has room in one frame. -/
def HasRoom : VfsRequest → Prop
  | .stat path =>
    match g.stat path with
    | .ok _ => True
    | .error e => ErrorFits ioText e g.version
  | .readDir path =>
    ReplyFits ioText (fun entries => 12 + arrayHeaderSize entries.length +
      (entries.map entrySize).sum ≤ maxFrameBytes) (g.readDir path)
  | .read path offset len =>
    if offset = 0 ∧ len = 0 then
      ReplyFits ioText (fun data => ContentFits data data.length) (g.readFile path)
    else
      ReplyFits ioText (fun data =>
        ReplyFits ioText (fun stat => ContentFits data stat.size) (g'.stat path))
        (g.readRange path offset len)
  | .readLink path =>
    ReplyFits ioText (fun target => 12 + octetsSize target ≤ maxFrameBytes) (g.readLink path)
  | .access path _ => ReplyFits ioText (fun _ => True) (g.pathExists path)
  | .announce _ _ | .canaryBypass _ _ => True

end Room

/-! ## The length of an answer -/

@[simp] theorem length_octets_data (data : Bytes) : (octets data).length = octetsSize data :=
  length_octets data

theorem length_pack_entry (e : DirEntry) : e.pack.length = entrySize e := by
  have htwo : arrayHeaderSize 2 = 1 := rfl
  simp only [DirEntry.pack, length_array, bin, List.length_append, length_binHeader, length_str,
    entrySize, List.map_cons, List.map_nil, List.sum_cons, List.sum_nil, List.length_cons,
    List.length_nil, Nat.zero_add, Nat.reduceAdd, htwo]
  omega

/-- A hash is 32 bytes. -/
theorem octetsSize_hash_le (hash : Hash256) : octetsSize hash.toList ≤ 69 := by
  have hcount : hash.toList.countP (0x80 ≤ ·) ≤ hash.toList.length := List.countP_le_length
  have hlen : hash.toList.length = 32 := by simp
  have hheader := arrayHeaderSize_le hash.toList.length
  unfold octetsSize
  omega

theorem length_pack_stat_le (st : VirtualStat) : st.pack.length ≤ 122 := by
  have hsize := uintSize_le st.size
  have hmode := uintSize_le st.mode
  have hmtime := uintSize_le st.mtime
  have hctime := uintSize_le st.ctime
  have hnlink := uintSize_le st.nlink
  have hheader : arrayHeaderSize 9 = 1 := rfl
  unfold VirtualStat.pack
  cases st.contentHash with
  | none =>
    simp only [length_array, List.map_cons, List.map_nil, List.sum_cons, List.sum_nil,
      List.length_cons, List.length_nil, length_uint, length_bool, nil, Nat.zero_add, Nat.reduceAdd,
      hheader]
    omega
  | some hash =>
    have hhash := octetsSize_hash_le hash
    simp only [length_array, List.map_cons, List.map_nil, List.sum_cons, List.sum_nil,
      List.length_cons, List.length_nil, length_uint, length_bool, length_octets_data, Nat.zero_add,
      Nat.reduceAdd, hheader]
    omega

section Lengths

variable (ioText : Posix.ErrorKind → String)

theorem length_pack_error (e : VfsError) (generation : Nat) :
    (vfsErrorAt ioText e generation).pack.length ≤ maxFrameBytes ↔
      ErrorFits ioText e generation := by
  have hname : strSize "Error" = 6 := by decide
  have hthree : arrayHeaderSize 3 = 1 := rfl
  have hlen : (vfsErrorAt ioText e generation).pack.length =
      8 + strSize e.code.wireName + strSize (e.message ioText) + uintSize generation := by
    simp only [vfsErrorAt, VfsResponse.pack, length_entry, length_str, hname, length_array,
      List.map_cons, List.map_nil, List.sum_cons, List.sum_nil, List.length_cons, List.length_nil,
      length_uint, Nat.zero_add, Nat.reduceAdd, hthree]
    omega
  rw [hlen]
  rfl

theorem length_pack_content (data : Bytes) (totalSize : Nat) :
    (VfsResponse.content data totalSize).pack.length =
      10 + octetsSize data + uintSize totalSize := by
  have hname : strSize "Content" = 8 := by decide
  have htwo : arrayHeaderSize 2 = 1 := rfl
  simp only [VfsResponse.pack, length_entry, length_str, hname, length_array, List.map_cons,
    List.map_nil, List.sum_cons, List.sum_nil, List.length_cons, List.length_nil, length_uint,
    length_octets_data, Nat.zero_add, Nat.reduceAdd, htwo]
  omega

theorem length_pack_dirEntries (entries : List DirEntry) :
    (VfsResponse.dirEntries entries).pack.length =
      12 + arrayHeaderSize entries.length + (entries.map entrySize).sum := by
  have hname : strSize "DirEntries" = 11 := by decide
  have hsum : (entries.map (List.length ∘ DirEntry.pack)).sum = (entries.map entrySize).sum := by
    congr 2
    funext e
    exact length_pack_entry e
  simp only [VfsResponse.pack, length_entry, length_str, hname, length_array, List.length_map,
    List.map_map, hsum]
  omega

/-- An answer is as long as what it carries, and its headers. -/
theorem length_pack_answer (g g' : ContentProvider) (q : VfsRequest) :
    (answerRequest ioText g g' q).pack.length ≤ maxFrameBytes ↔ HasRoom ioText g g' q := by
  have herror := length_pack_error ioText
  have hcontent : ∀ data totalSize, (VfsResponse.content data totalSize).pack.length ≤ maxFrameBytes ↔
      ContentFits data totalSize := by
    intro data totalSize
    rw [length_pack_content]
    rfl
  have hannounced : VfsResponse.announced.pack.length ≤ maxFrameBytes := by decide
  cases q with
  | stat path =>
    dsimp only [answerRequest, HasRoom, ContentProvider.statAt]
    cases g.stat path with
    | ok stat =>
      have hstat := length_pack_stat_le stat
      have hgen := uintSize_le g.version
      have hname : strSize "Stat" = 5 := by decide
      have htwo : arrayHeaderSize 2 = 1 := rfl
      refine iff_of_true ?_ trivial
      simp only [VfsResponse.pack, length_entry, length_str, hname, length_array, List.map_cons,
        List.map_nil, List.sum_cons, List.sum_nil, List.length_cons, List.length_nil, length_uint,
        Nat.zero_add, Nat.reduceAdd, htwo, maxFrameBytes]
      omega
    | error e => exact herror e g.version
  | readDir path =>
    dsimp only [answerRequest, HasRoom]
    cases g.readDir path with
    | ok entries => exact Eq.to_iff (congrArg (· ≤ maxFrameBytes) (length_pack_dirEntries entries))
    | error e => exact herror e 0
  | read path offset len =>
    dsimp only [answerRequest, HasRoom, answerRead]
    by_cases hwhole : offset = 0 ∧ len = 0
    · simp only [if_pos hwhole]
      cases g.readFile path with
      | ok data => exact hcontent data data.length
      | error e => exact herror e 0
    · simp only [if_neg hwhole]
      cases g.readRange path offset len with
      | error e => exact herror e 0
      | ok data =>
        show _ ↔ ReplyFits ioText (fun stat => ContentFits data stat.size) (g'.stat path)
        cases g'.stat path with
        | ok stat =>
          simp only [bind, Except.bind, pure, Except.pure]
          exact hcontent data stat.size
        | error e =>
          simp only [bind, Except.bind]
          exact herror e 0
  | readLink path =>
    dsimp only [answerRequest, HasRoom]
    cases g.readLink path with
    | ok target =>
      have hname : strSize "LinkTarget" = 11 := by decide
      show _ ↔ 12 + octetsSize target ≤ maxFrameBytes
      simp only [VfsResponse.pack, length_entry, length_str, hname, length_octets_data]
    | error e => exact herror e 0
  | access path mode =>
    dsimp only [answerRequest, HasRoom]
    cases g.pathExists path with
    | ok b =>
      have hlen : (VfsResponse.accessible b).pack.length ≤ maxFrameBytes := by cases b <;> decide
      exact iff_of_true hlen trivial
    | error e => exact herror e 0
  | announce pid token => exact iff_of_true hannounced trivial
  | canaryBypass token surface => exact iff_of_true hannounced trivial

end Lengths

/-- The daemon writes an answer the client accepts exactly when what it carries has room. The codec
writes the answer as MessagePack has it, and reads it back. -/
theorem answer_accepted_iff (toVec : VfsResponse → Option Bytes)
    (fromSlice : Bytes → Option VfsResponse) (ioText : Posix.ErrorKind → String)
    (g g' : ContentProvider) (q : VfsRequest)
    (hto : toVec (answerRequest ioText g g' q) = some (answerRequest ioText g g' q).pack)
    (hfrom : fromSlice (answerRequest ioText g g' q).pack = some (answerRequest ioText g g' q)) :
    FrameAccepted toVec fromSlice (answerRequest ioText g g' q) ↔ HasRoom ioText g g' q := by
  rw [frameAccepted_iff hto hfrom]
  exact length_pack_answer ioText g g' q

/-- A graph with one file, `a`. -/
def Sample.holding (content : Bytes) : ContentProvider where
  readFile p := if p = a then .ok content else .error (.notFound p.display)
  readRange p offset len :=
    if p = a then .ok (Content.slice content offset (offset + len))
    else .error (.notFound p.display)
  stat p :=
    if p = .root then .ok (.directory 0)
    else if p = a then .ok (.regularFile content.length (.replicate 32 0) false 0)
    else .error (.notFound p.display)
  readDir p :=
    if p = .root then .ok [⟨nameA, .file⟩]
    else if p = a then .error (.notDirectory p.display)
    else .error (.notFound p.display)
  pathExists p := .ok (p = .root || p = a)
  readLink p := .error (.invalidInput p.display)
  version := 1

/-- The answer to a read of all of `a`. -/
theorem Sample.answer_holding (ioText : Posix.ErrorKind → String) (content : Bytes) :
    answerRequest ioText (holding content) (holding content) (.read a 0 0) =
      .content content content.length :=
  rfl

/-- A codec as MessagePack has it, with a decoder that knows one response. -/
def Sample.decodeOnly (response : VfsResponse) (bytes : Bytes) : Option VfsResponse :=
  if bytes = response.pack then some response else none

/-- Two bytes, one of them from `0x80` on, in a payload of 15 bytes. -/
theorem answer_accepted_iff_short :
    let graph := Sample.holding [1, 200]
    let response := answerRequest (fun _ => "") graph graph (.read Sample.a 0 0)
    response.pack.length = 15 ∧
      FrameAccepted (fun r => some r.pack) (Sample.decodeOnly response) response := by
  intro graph response
  have hroom : HasRoom (fun _ => "") graph graph (.read Sample.a 0 0) := by
    show 10 + octetsSize [1, 200] + uintSize 2 ≤ maxFrameBytes
    decide
  refine ⟨by decide, ?_⟩
  exact (answer_accepted_iff _ _ _ graph graph _ rfl (if_pos rfl)).mpr hroom

/-- A file of 16 MiB or more, read as a whole, is sent in a frame that the client refuses. -/
theorem Sample.holding_refused (content : Bytes) (hmin : maxFrameBytes ≤ content.length)
    (hmax : content.length ≤ 2 ^ 30) (fromSlice : Bytes → Option VfsResponse) :
    let response := answerRequest (fun _ => "") (holding content) (holding content) (.read a 0 0)
    ¬ FrameAccepted (fun r => some r.pack) fromSlice response ∧
      ∃ wire, writeFrame (fun r => some r.pack) response = some wire ∧
        recv fromSlice wire = none := by
  intro response
  have hresponse : response = .content content content.length := answer_holding ..
  have hlen : response.pack.length = 10 + octetsSize content + uintSize content.length := by
    rw [hresponse, length_pack_content]
  have hcount : content.countP (0x80 ≤ ·) ≤ content.length := List.countP_le_length
  have hheader := MsgPack.arrayHeaderSize_le content.length
  have huint := MsgPack.uintSize_le content.length
  have hover : maxFrameBytes < response.pack.length := by
    rw [hlen, octetsSize]
    omega
  have hlt : response.pack.length < 2 ^ 32 := by
    rw [hlen, octetsSize]
    omega
  have hwire : writeFrame (fun r => some r.pack) response =
      some (Frames.frame response.pack) := rfl
  have hto : (fun r : VfsResponse => some r.pack) response = some response.pack := rfl
  refine ⟨?_, _, hwire, recv_over hto hwire hover hlt⟩
  rintro ⟨payload, -, hto, -, hle, -⟩
  cases hto
  omega

/-- So a file of 16 MiB cannot be read as a whole, though the codec is faithful. -/
theorem large_answer_refused :
    let graph := Sample.holding (List.replicate (2 ^ 24) 0)
    let response := answerRequest (fun _ => "") graph graph (.read Sample.a 0 0)
    let fromSlice := Sample.decodeOnly response
    ¬ FrameAccepted (fun r => some r.pack) fromSlice response ∧
      ∃ wire, writeFrame (fun r => some r.pack) response = some wire ∧
        recv fromSlice wire = none := by
  have hlen : (List.replicate (2 ^ 24) (0 : UInt8)).length = maxFrameBytes :=
    List.length_replicate ..
  exact Sample.holding_refused _ (Nat.le_of_eq hlen.symm) (hlen ▸ by decide) _

end KinVfs
