import KinVfs.Lib.Frames
import KinVfs.Shim.ProjectionQueue

/-!
# Request frames (`crates/kin-vfs-daemon/src/framing.rs`)

The worker of a projection surface sends each request as one frame (`PipeClient::send`), and `read_frame`
refuses a length over `MAX_FRAME_BYTES` before it reads the payload. A write of `MAX_PROJECTION_WRITE`
bytes is within it, whatever the bytes are: each takes two at most, and `WRITE_FRAME_OVERHEAD` has room
for the rest.
-/

namespace KinVfs

open MsgPack Frames

/-- The MessagePack text of a request of the worker. -/
def ProjectionRequest.pack : ProjectionRequest → Bytes
  | .write path data => entry (str "Write") (array [bin path.bytes, octets data])
  | .remove path => entry (str "Remove") (array [bin path.bytes])
  | .rename old new => entry (str "Rename") (array [bin old.bytes, bin new.bytes])

/-- `PipeClient::send`. -/
def ProjectionRequest.sent (q : ProjectionRequest) : Bytes := frame q.pack

/-- Why `read_frame` has no request. -/
inductive FrameError where
  /-- The stream ends. -/
  | io
  | protocol (text : String)
  | serialization (text : String)

/-- `read_frame`. `fromSlice` is the decoder. -/
def readFrame {α : Type} (fromSlice : Bytes → Except String α) (stream : Bytes) :
    Except FrameError (α × Bytes) :=
  let len := announced id stream
  if stream.length < 4 then .error .io
  else if maxFrameBytes < len then
    .error (.protocol ("frame too large: " ++ toString len ++ " bytes (max " ++ toString maxFrameBytes ++ ")"))
  else if stream.length < 4 + len then .error .io
  else
    match fromSlice ((stream.drop 4).take len) with
    | .ok request => .ok (request, (stream.drop 4).drop len)
    | .error e => .error (.serialization e)

/-- A frame within the bound goes to the decoder. -/
theorem readFrame_frame {α : Type} {fromSlice : Bytes → Except String α} {payload : Bytes}
    (h : payload.length ≤ maxFrameBytes) (rest : Bytes) :
    readFrame fromSlice (frame payload ++ rest) =
      match fromSlice payload with
      | .ok request => .ok (request, rest)
      | .error e => .error (.serialization e) := by
  have hshort : payload.length < 2 ^ 32 := Nat.lt_of_le_of_lt h (by decide)
  have hdrop : (frame payload ++ rest).drop 4 = payload ++ rest := by
    rw [List.drop_append_of_le_length (by simp), drop_frame]
  have hlen : (frame payload ++ rest).length = 4 + payload.length + rest.length := by simp
  simp only [readFrame, announced_frame_append hshort, hdrop, hlen]
  rw [if_neg (by omega), if_neg (by omega), if_neg (by omega), List.take_left, List.drop_left]

/-- The text of a write: the map, the name, the array, the path and the bytes. -/
theorem length_pack_write_le (path : VfsPath) (data : Bytes) :
    (ProjectionRequest.write path data).pack.length ≤ 18 + path.bytes.length + 2 * data.length := by
  have hname : (str "Write").length = 6 := by decide
  have hbin := binHeaderSize_le path.bytes.length
  have hdata := length_octets_le data
  simp only [ProjectionRequest.pack, length_entry, hname, length_array, bin, List.length_append,
    length_binHeader, List.map_cons, List.map_nil, List.sum_cons, List.sum_nil, List.length_cons,
    List.length_nil]
  have harray : arrayHeaderSize (0 + 1 + 1) = 1 := by decide
  omega

/-- **A permitted projection write fits one frame**: its text is within the bound, and the daemon reads
it to its end. -/
theorem projection_write_fits {α : Type} (fromSlice : Bytes → Except String α) {path : VfsPath}
    {data : Bytes} (hpath : path.bytes.length ≤ 65000) (hdata : data.length ≤ maxProjectionWrite)
    (rest : Bytes) :
    (ProjectionRequest.write path data).pack.length ≤ maxFrameBytes ∧
      readFrame fromSlice ((ProjectionRequest.write path data).sent ++ rest) =
        match fromSlice (ProjectionRequest.write path data).pack with
        | .ok request => .ok (request, rest)
        | .error e => .error (.serialization e) := by
  have hfits : (ProjectionRequest.write path data).pack.length ≤ maxFrameBytes := by
    have hroom : 18 + 65000 + 2 * maxProjectionWrite ≤ maxFrameBytes := by decide
    have hle := length_pack_write_le path data
    omega
  exact ⟨hfits, readFrame_frame hfits rest⟩

/-- The decoder on the text of `q`. -/
def Sample.decodes (q : ProjectionRequest) (bytes : Bytes) : Except String ProjectionRequest :=
  if bytes = q.pack then .ok q else .error "invalid"

/-- The largest write to `a`, of bytes that take two each. -/
theorem projection_write_fits_largest :
    ∃ (path : VfsPath) (data : Bytes), path.bytes = [97] ∧ data = List.replicate maxProjectionWrite 0xff ∧
      (ProjectionRequest.write path data).pack.length ≤ maxFrameBytes ∧
      readFrame (Sample.decodes (.write path data)) ((ProjectionRequest.write path data).sent ++ []) =
        .ok (.write path data, []) := by
  obtain ⟨data, hdata⟩ : ∃ data : Bytes, data = List.replicate maxProjectionWrite 0xff := ⟨_, rfl⟩
  obtain ⟨path, hpath⟩ : ∃ path : VfsPath, path.bytes = [97] := ⟨⟨[97], by decide⟩, rfl⟩
  have hlen : data.length ≤ maxProjectionWrite := by rw [hdata, List.length_replicate]
  obtain ⟨hfits, hread⟩ := projection_write_fits (Sample.decodes (.write path data))
    (by rw [hpath]; decide) hlen []
  rw [Sample.decodes, if_pos rfl] at hread
  exact ⟨path, data, hpath, hdata, hfits, hread⟩

end KinVfs
