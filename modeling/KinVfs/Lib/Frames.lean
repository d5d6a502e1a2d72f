import KinVfs.Lib.MsgPack

/-!
# Length-prefixed frames

A frame is the length of its payload in four bytes, the highest first, and the payload. The items of a
stream are bytes with whatever is known of them (`byte` is the byte of an item), so that it can be said
where a frame came from.

`cut` takes the frame at the head of a stream. On a part of one frame it gives nothing before the frame
is whole (`cut_part`).
-/

namespace Frames

open MsgPack

variable {α : Type} {byte : α → UInt8} {limit : Nat} {xs payload rest : List α} {body : List UInt8}

/-- The length is cast to 32 bits. -/
def frame (body : List UInt8) : List UInt8 := bigEndian 4 (body.length % 2 ^ 32) ++ body

/-- The length that the first four items say. -/
def announced (byte : α → UInt8) (xs : List α) : Nat := ofBigEndian ((xs.take 4).map byte)

/-- The payload of the frame at the head of the stream, and the rest of the stream. -/
def cut (byte : α → UInt8) (limit : Nat) (xs : List α) : Option (List α × List α) :=
  if xs.length < 4 then none
  else if limit < announced byte xs then none
  else if xs.length < 4 + announced byte xs then none
  else some ((xs.drop 4).take (announced byte xs), (xs.drop 4).drop (announced byte xs))

/-- What a reader with the items `xs` still asks for. -/
def wanted (byte : α → UInt8) (limit : Nat) (xs : List α) : Nat :=
  if xs.length < 4 then 4 - xs.length
  else if limit < announced byte xs then 0
  else 4 + announced byte xs - xs.length

@[simp] theorem length_frame : (frame body).length = 4 + body.length := by simp [frame]

theorem drop_frame : (frame body).drop 4 = body := List.drop_left' (length_bigEndian ..)

/-- The first four bytes of a frame are its length. -/
theorem announced_of_part (hbody : body.length < 2 ^ 32) (hpart : xs.map byte <+: frame body)
    (hfour : 4 ≤ xs.length) : announced byte xs = body.length := by
  have htake : (xs.take 4).map byte = (frame body).take 4 := by
    obtain ⟨tail, htail⟩ := hpart
    rw [← htail, List.take_append_of_le_length (by simpa using hfour), List.map_take]
  have hhead : (frame body).take 4 = bigEndian 4 body.length := by
    rw [frame, List.take_left' (length_bigEndian ..), Nat.mod_eq_of_lt hbody]
  rw [announced, htake, hhead]
  exact ofBigEndian_bigEndian (by simpa using hbody)

theorem announced_frame (hbody : body.length < 2 ^ 32) : announced id (frame body) = body.length :=
  announced_of_part hbody (by simp) (by simp)

/-- The first four bytes of a stream are the length of the frame at its head. -/
theorem announced_frame_append (hbody : body.length < 2 ^ 32) (rest : List UInt8) :
    announced id (frame body ++ rest) = body.length := by
  rw [announced, List.take_append_of_le_length (by simp)]
  exact announced_frame hbody

/-- A part of a frame that is cut is the frame. -/
theorem cut_part (hbody : body.length < 2 ^ 32) (hpart : xs.map byte <+: frame body)
    (h : cut byte limit xs = some (payload, rest)) :
    xs.map byte = frame body ∧ payload = xs.drop 4 ∧ rest = [] := by
  unfold cut at h
  split at h
  · cases h
  · rename_i hfour
    have hlen := announced_of_part hbody hpart (Nat.le_of_not_lt hfour)
    rw [hlen] at h
    split at h
    · cases h
    · split at h
      · cases h
      · rename_i hlong
        have hle : xs.length ≤ 4 + body.length := by
          have hle := hpart.length_le
          rwa [List.length_map, length_frame] at hle
        have hall : (xs.drop 4).length ≤ body.length := by
          rw [List.length_drop]
          omega
        cases h
        refine ⟨hpart.eq_of_length ?_, ?_, ?_⟩
        · rw [List.length_map, length_frame]
          omega
        · rw [List.take_of_length_le hall]
        · exact List.drop_eq_nil_of_le hall

/-- A whole frame is cut. -/
theorem cut_frame (hbody : body.length < 2 ^ 32) (hlimit : body.length ≤ limit)
    (hxs : xs.map byte = frame body) : cut byte limit xs = some (xs.drop 4, []) := by
  have hlen : xs.length = 4 + body.length := by
    rw [← List.length_map, hxs, length_frame]
  have hannounced : announced byte xs = body.length :=
    announced_of_part hbody (hxs ▸ List.prefix_rfl) (by omega)
  have hall : (xs.drop 4).length ≤ body.length := by
    rw [List.length_drop]
    omega
  unfold cut
  rw [hannounced, if_neg (by omega), if_neg (by omega), if_neg (by omega),
    List.take_of_length_le hall, List.drop_eq_nil_of_le hall]

end Frames
